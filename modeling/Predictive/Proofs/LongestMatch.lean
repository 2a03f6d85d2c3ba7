import Predictive.Proofs.MasterAutomaton
import Predictive.Proofs.Pieces
import Mathlib.Data.List.TakeWhile

/-!
# Longest matches

A tokenizer cuts an input into pieces, each the longest that begins a token of its pattern set
(`PatternSet.Longest`). `PatternSet.Cuts` says which pieces these are and how the cutting ends;
`Tokenizer.collect_cuts` shows that the calls of a fresh tokenizer give just these, without those that
are discarded.
-/

namespace Predictive

/-! ## What an automaton reads in one go -/

namespace Dfa

theorem walk_cons (d : Dfa) (id : Nat) (c : Char) (cs : List Char) :
    d.walk id (c :: cs) = (d.step id c).bind fun next => d.walk next cs :=
  List.foldlM_cons ..

theorem walk_munch (d : Dfa) (id : Nat) (cs : List Char) :
    d.walk id (d.munch id cs).lexeme = some (d.munch id cs).state := by
  induction cs generalizing id with
  | nil => rfl
  | cons c cs ih =>
    rw [munch]
    split
    · split
      · next next hstep =>
        rw [walk_cons, hstep]
        exact ih next
      · rfl
    · rfl

theorem lexeme_munch (d : Dfa) (id : Nat) (cs : List Char) :
    (d.munch id cs).lexeme <+: cs.takeWhile isAccepted := by
  induction cs generalizing id with
  | nil => exact List.nil_prefix
  | cons c cs ih =>
    rw [munch]
    split
    · next hc =>
      rw [List.takeWhile_cons_of_pos hc]
      split
      · next next _ => exact List.cons_prefix_cons.2 ⟨rfl, ih next⟩
      · exact List.nil_prefix
    · exact List.nil_prefix

/-- No longer text of accepted characters can be read. -/
theorem length_le_munch (d : Dfa) (id : Nat) {cs p : List Char}
    (hp : p <+: cs.takeWhile isAccepted) (hwalk : (d.walk id p).isSome) :
    p.length ≤ (d.munch id cs).lexeme.length := by
  induction p generalizing id cs with
  | nil => exact Nat.zero_le _
  | cons a p ih =>
    cases cs with
    | nil => exact absurd (List.prefix_nil.1 hp) (List.cons_ne_nil a p)
    | cons c cs =>
      rw [List.takeWhile_cons] at hp
      split at hp
      · next hc =>
        obtain ⟨rfl, hp'⟩ := List.cons_prefix_cons.1 hp
        obtain ⟨last, hlast⟩ := Option.isSome_iff_exists.1 hwalk
        rw [walk_cons, Option.bind_eq_some_iff] at hlast
        obtain ⟨next, hstep, hlast⟩ := hlast
        rw [munch, if_pos hc, hstep]
        exact Nat.succ_le_succ (ih next hp' (Option.isSome_iff_exists.2 ⟨last, hlast⟩))
      · exact absurd (List.prefix_nil.1 hp) (List.cons_ne_nil a p)

end Dfa

namespace PatternSet

variable {s : PatternSet} {config : Config}

/-- The longest text of accepted characters at the start of `rest` that begins a token. It is empty
if none begins one. -/
structure Longest (s : PatternSet) (rest p : List Char) : Prop where
  accepted : p <+: rest.takeWhile isAccepted
  begins : p = [] ∨ s.Begins p
  length_le : ∀ q, q <+: rest.takeWhile isAccepted → s.Begins q → q.length ≤ p.length

/-- How an input is cut into pieces: the pieces in order, the end-of-input token or the error that
ends them, and the input that is left. -/
inductive Cuts (s : PatternSet) (config : Config) :
    Scanner → List Token → Except TokenizeError Token → List Char → Prop
  /-- At the end of the input. -/
  | atEnd {line : Nat} : Cuts s config ⟨[], line⟩ [] (.ok (.atEnd config.eof line)) []
  /-- A piece, named by the pattern defined first of those that match it. -/
  | piece {p rest : List Char} {line : Nat} {q : Pattern} {pieces : List Token}
      {ending : Except TokenizeError Token} {left : List Char} :
      s.Longest (p ++ rest) p → p ≠ [] → s.namedBy? (String.ofList p) = some q →
      Cuts s config ⟨rest, line + lineBreaks p rest⟩ pieces ending left →
      Cuts s config ⟨p ++ rest, line⟩
        ({ name := q.definition.name, lexeme := String.ofList p, line } :: pieces) ending left
  /-- A character that no input may hold. -/
  | invalid {c : Char} {rest : List Char} {line : Nat} : isAccepted c = false →
      Cuts s config ⟨c :: rest, line⟩ [] (.error (.invalidCharacter c line)) (c :: rest)
  /-- A text that no pattern matches, with the character after it. -/
  | noToken {c : Char} {p rest : List Char} {line : Nat} :
      s.Longest (p ++ rest) p → (p = [] ∨ s.namedBy? (String.ofList p) = none) →
      (p ++ rest).head? = some c → isAccepted c = true →
      Cuts s config ⟨p ++ rest, line⟩ []
        (.error (.noSuchToken (String.ofList (p ++ rest.head?.toList)) line)) (p ++ rest)

namespace Cuts

variable {scanner : Scanner} {pieces : List Token} {ending : Except TokenizeError Token}
  {left : List Char}

/-- Pieces have characters. -/
theorem lexeme_ne_empty (h : s.Cuts config scanner pieces ending left) :
    ∀ t ∈ pieces, t.lexeme ≠ "" := by
  induction h with
  | atEnd | invalid | noToken => exact fun _ ht => absurd ht List.not_mem_nil
  | piece _ hne _ _ ih =>
    refine List.forall_mem_cons.2 ⟨fun hempty => hne ?_, ih⟩
    simpa using congrArg String.toList hempty

/-- The pieces make up the input, but for what is left. -/
theorem flatMap_append (h : s.Cuts config scanner pieces ending left) :
    (pieces.flatMap fun t => t.lexeme.toList) ++ left = scanner.rest := by
  induction h with
  | atEnd | invalid | noToken => rfl
  | @piece p rest line q pieces ending left _ _ _ _ ih =>
    rw [List.flatMap_cons, String.toList_ofList, List.append_assoc, ih]

/-- At the end of the input nothing is left. -/
theorem left_eq_nil (h : s.Cuts config scanner pieces ending left) {t : Token}
    (hending : ending = .ok t) : left = [] := by
  induction h with
  | atEnd => rfl
  | invalid | noToken => cases hending
  | piece _ _ _ _ ih => exact ih hending

end Cuts

/-! ## Pieces of a compiled set -/

/-- What the master automaton reads in one go is the longest text that begins a token. -/
theorem Compiled.longest_munch (h : s.Compiled) (rest : List Char) :
    s.Longest rest (s.dfa.munch 0 rest).lexeme where
  accepted := s.dfa.lexeme_munch 0 rest
  begins := h.isSome_walk_iff.1 (by rw [s.dfa.walk_munch 0 rest]; rfl)
  length_le _ hq hbegins := s.dfa.length_le_munch 0 hq (h.isSome_walk_iff.2 (.inr hbegins))

/-- The next piece is the longest text that begins a token, if a pattern matches it. -/
theorem Compiled.piece_cases (h : s.Compiled) (config : Config) {input : List Char} (hne : input ≠ [])
    (line : Nat) :
    (∃ p rest q, input = p ++ rest ∧ s.Longest (p ++ rest) p ∧ p ≠ [] ∧
      s.namedBy? (String.ofList p) = some q ∧ Scanner.piece s.dfa ⟨input, line⟩ =
        (.ok { name := q.definition.name, lexeme := String.ofList p, line },
          ⟨rest, line + lineBreaks p rest⟩)) ∨
    ∃ e next, Scanner.piece s.dfa ⟨input, line⟩ = (.error e, next) ∧
      s.Cuts config ⟨input, line⟩ [] (.error e) input := by
  have hlongest := h.longest_munch input
  have happend := s.dfa.munch_append 0 input
  have hwalk := s.dfa.walk_munch 0 input
  unfold Scanner.piece
  dsimp only
  generalize s.dfa.munch 0 input = m at hlongest happend hwalk ⊢
  obtain ⟨p, state, rest⟩ := m
  dsimp only at hlongest happend hwalk ⊢
  subst happend
  have hwinner : s.dfa.winnerAt? state =
      (s.namedBy? (String.ofList p)).map (·.definition.owner) :=
    h.winnerAt?_eq (by rwa [String.toList_ofList])
  rw [hwinner]
  cases p with
  | nil =>
    refine .inr ⟨_, _, rfl, ?_⟩
    cases rest with
    | nil => exact absurd rfl hne
    | cons c rest =>
      show s.Cuts config ⟨c :: rest, line⟩ [] (.error (if isAccepted c then _ else _)) (c :: rest)
      split
      · next hc => exact .noToken (p := []) hlongest (.inl rfl) rfl hc
      · next hc => exact .invalid (Bool.eq_false_iff.2 hc)
  | cons c p =>
    cases hnamed : s.namedBy? (String.ofList (c :: p)) with
    | some q => exact .inl ⟨c :: p, rest, q, rfl, hlongest, List.cons_ne_nil c p, hnamed, rfl⟩
    | none =>
      have hc : isAccepted c = true :=
        List.mem_takeWhile_imp (hlongest.accepted.subset List.mem_cons_self)
      exact .inr ⟨_, _, rfl, .noToken hlongest (.inr hnamed) rfl hc⟩

/-- An input is cut as it should be, where no pattern that gives tokens has the name of its end. -/
theorem Compiled.exists_cuts (h : s.Compiled)
    (heof : ∀ p ∈ s.patterns, p.definition.internal = false → p.definition.name ≠ config.eof)
    {bound : Nat} {input : List Char} (hbound : input.length ≤ bound) (line : Nat) :
    ∃ pieces left,
      s.Cuts config ⟨input, line⟩ pieces
        (Scanner.cut (Scanner.piece s.dfa) config bound ⟨input, line⟩).2 left ∧
      (Scanner.cut (Scanner.piece s.dfa) config bound ⟨input, line⟩).1 =
        pieces.filter fun t => t.name ≠ config.skip := by
  induction bound generalizing input line with
  | zero =>
    obtain rfl := List.length_eq_zero_iff.1 (Nat.le_zero.1 hbound)
    exact ⟨[], [], .atEnd, rfl⟩
  | succ bound ih =>
    by_cases hne : input = []
    · subst hne
      exact ⟨[], [], .atEnd, rfl⟩
    unfold Scanner.cut
    rw [if_neg (List.isEmpty_iff.not.2 hne)]
    rcases h.piece_cases config hne line with
      ⟨p, rest, q, rfl, hlongest, hp, hnamed, hpiece⟩ | ⟨e, next, hpiece, hcuts⟩
    · have hlt : rest.length < (p ++ rest).length := Scanner.length_rest_of_piece hpiece
      obtain ⟨pieces, left, hcuts, htokens⟩ :=
        ih (Nat.lt_succ_iff.1 (Nat.lt_of_lt_of_le hlt hbound)) (line + lineBreaks p rest)
      obtain ⟨hmem, hinternal⟩ := mem_of_namedBy? hnamed
      have hq := heof q hmem hinternal
      refine ⟨{ name := q.definition.name, lexeme := String.ofList p, line } :: pieces, left, ?_, ?_⟩
      · rw [hpiece]
        dsimp only
        rw [if_neg hq]
        split <;> exact .piece hlongest hp hnamed hcuts
      · rw [hpiece]
        dsimp only
        rw [if_neg hq, List.filter_cons]
        split
        · next hskip => simp [hskip, htokens]
        · next hskip => simp [hskip, htokens]
    · rw [hpiece]
      exact ⟨[], input, hcuts, rfl⟩

end PatternSet

namespace Tokenizer

variable {s : PatternSet} {config : Config} {input : String} {z : Tokenizer}

/-- A configured tokenizer stands at the start of its input, and no pattern that gives tokens has the
name of the end of the input. -/
theorem configured_eq_ok (h : s.Compiled) (hz : configured s input config = .ok z) :
    z = .start s input config ∧
      ∀ p ∈ s.patterns, p.definition.internal = false → p.definition.name ≠ config.eof := by
  obtain ⟨patterns, hdefined, rfl⟩ := h.exists_defined
  unfold configured at hz
  cases hfind : (PatternSet.ofPatterns patterns).pattern? config.eof with
  | some found =>
    rw [hfind] at hz
    dsimp only at hz
    split at hz
    · next hinternal =>
      refine ⟨(Except.ok.inj hz).symm, fun p hp hp' hname => ?_⟩
      have hp := hdefined.find?_name hp
      rw [hname] at hp
      obtain rfl := Option.some.inj (hfind.symm.trans hp)
      rw [hinternal] at hp'
      cases hp'
    · cases hz
  | none =>
    rw [hfind] at hz
    refine ⟨(Except.ok.inj hz).symm, fun p hp _ hname => ?_⟩
    have hp := hdefined.find?_name hp
    rw [hname] at hp
    exact absurd (hfind.symm.trans hp) (by simp)

/-- For every compiled set, every configuration that it accepts and every input: the calls of a fresh
tokenizer up to the end of the input or an error cut the input into its pieces, give those whose name
is not the one to skip, and end as the cutting does. The pieces have characters, and make up the
input, but for what is left where an error ends them. -/
theorem collect_cuts (h : s.Compiled) (hz : configured s input config = .ok z) :
    ∃ pieces left, s.Cuts config { rest := input.toList } pieces z.collect.ending left ∧
      z.collect.tokens = (pieces.filter fun t => t.name ≠ config.skip) ∧
      (∀ t ∈ pieces, t.lexeme ≠ "") ∧
      (pieces.flatMap fun t => t.lexeme.toList) ++ left = input.toList ∧
      ∀ t, z.collect.ending = .ok t → left = [] := by
  obtain ⟨rfl, heof⟩ := configured_eq_ok h hz
  have hcut := cut_eq_cut (z := start s input config) rfl le_rfl
  obtain ⟨pieces, left, hcuts, htokens⟩ := h.exists_cuts heof (le_refl input.toList.length) 1
  have hgiven : (start s input config).collect.tokens = _ := (congrArg Prod.fst hcut).trans htokens
  have hending : (start s input config).collect.ending = _ := congrArg Prod.snd hcut
  refine ⟨pieces, left, ?_, hgiven, hcuts.lexeme_ne_empty, hcuts.flatMap_append, fun t ht => ?_⟩
  · rw [hending]
    exact hcuts
  · exact hcuts.left_eq_nil (hending.symm.trans ht)

/-- Blanks are cut off and discarded, and a number is read as far as it goes: the one-digit pattern
takes only the last digit. -/
theorem collect_cuts_numbers :
    ∃ s z, PatternSet.ofDefinitions [{ name := "one", regex := "1" },
        { name := "number", regex := "[01]+" }, { name := "skip", regex := "\\s" }] = .ok s ∧
      configured s "10 1" {} = .ok z ∧
      ∃ pieces left, s.Cuts {} { rest := "10 1".toList } pieces z.collect.ending left ∧
        (pieces.filter fun t => t.name ≠ "skip") = [⟨"number", "10", 1⟩, ⟨"one", "1", 1⟩] ∧
        (pieces.flatMap fun t => t.lexeme.toList) = "10 1".toList := by
  have hcheck : (match PatternSet.ofDefinitions [{ name := "one", regex := "1" },
        { name := "number", regex := "[01]+" }, { name := "skip", regex := "\\s" }] with
      | .ok s => (configured s "10 1" {}).toOption.any fun z =>
        z.ahead.isEmpty && z.scanner.rest.length ≤ 4 &&
          z.scanner.cut (Scanner.piece z.patterns.dfa) z.config 4 =
            ([⟨"number", "10", 1⟩, ⟨"one", "1", 1⟩], .ok (.atEnd "eof" 1))
      | .error _ => false) = true := by
    decide +kernel
  split at hcheck
  · next s hs =>
    cases hz : configured s "10 1" {} with
    | error e =>
      rw [hz] at hcheck
      cases hcheck
    | ok z =>
      rw [hz] at hcheck
      simp only [Except.toOption, Option.any_some, Bool.and_eq_true, List.isEmpty_iff,
        decide_eq_true_eq] at hcheck
      obtain ⟨⟨hahead, hbound⟩, hcut⟩ := hcheck
      obtain ⟨pieces, left, hcuts, htokens, -, hinput, hleft⟩ := collect_cuts (.inr ⟨_, hs⟩) hz
      have hall := (cut_eq_cut hahead hbound).trans hcut
      have hgiven : z.collect.tokens = _ := congrArg Prod.fst hall
      obtain rfl := hleft _ (congrArg Prod.snd hall)
      rw [List.append_nil] at hinput
      exact ⟨s, z, hs, hz, pieces, [], hcuts, htokens.symm.trans hgiven, hinput⟩
  · cases hcheck

end Tokenizer

end Predictive
