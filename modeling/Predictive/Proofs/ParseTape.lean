import Predictive.Proofs.EndOfInput
import Predictive.Proofs.ParseEnd

/-!
# Parsing an input or its tokens

The machine looks at the line of a token only to report it (`Machine.step_endOn`). So a parse of two
streams that give the same tokens, up to the line of the end of the input, comes to the same result,
up to that line (`Parse.run_endOn`). A tokenizer and the tape of its tokens are two such streams
(`Grammar.parseTokens_ofTokens`).
-/

namespace Predictive

open TokenStream (Gives EndsAfter)

/-! ## The line of the end of the input -/

/-- The token, on the given line if it is the end of the input. -/
def Token.endOn (eof : String) (line : Nat) (t : Token) : Token :=
  { t with line := if t.name = eof then line else t.line }

/-- The error, on the given line if the token that does not fit is the end of the input. -/
def ParseError.endOn (eof : String) (line : Nat) : ParseError → ParseError
  | .tokenMismatch expected found lexeme l =>
    .tokenMismatch expected found lexeme (if found = eof then line else l)
  | .unexpectedToken rule found lexeme l =>
    .unexpectedToken rule found lexeme (if found = eof then line else l)
  | .noTree => .noTree
  | .tokenize e => .tokenize e

namespace Parse

variable {eof : String} {line : Nat} {g : Grammar} {m : Machine} {t : Token} {us : List Token}
  {result : Except ParseError Node}

/-- The halt, with its error on the given line if the token is the end of the input. -/
def Halt.endOn (eof : String) (line : Nat) : Halt → Halt
  | .read m => .read m
  | .accept m => .accept m
  | .fail e => .fail (e.endOn eof line)

theorem Machine.step_endOn (eof : String) (line : Nat) (g : Grammar) (t : Token) (m : Machine) :
    m.step g (t.endOn eof line) = (m.step g t).map id (Halt.endOn eof line) := by
  obtain ⟨stack, nodes, root⟩ := m
  cases stack with
  | nil => rfl
  | cons task stack =>
    cases task with
    | close => rfl
    | expect s =>
      cases s with
      | empty => rfl
      | terminal name id =>
        by_cases hname : t.name = name
        · by_cases hid : id = 0 <;> simp [step, Token.endOn, Halt.endOn, addLeaf, hname, hid]
        · simp [step, Token.endOn, Halt.endOn, ParseError.endOn, hname]
      | rule name id =>
        unfold step
        dsimp only [Token.endOn]
        split <;> rfl

theorem Machine.settle_endOn (eof : String) (line : Nat) (g : Grammar) (t : Token) (steps : Nat)
    (m : Machine) : m.settle g (t.endOn eof line) steps =
      (m.settle g t steps).map (Halt.endOn eof line) := by
  induction steps generalizing m with
  | zero => rfl
  | succ steps ih =>
    unfold settle
    rw [step_endOn]
    cases m.step g t with
    | inl next => exact ih next
    | inr halt => rfl

/-- Two streams give the same tokens up to the end of the input, which may be on different lines. A
run on the one is done as soon as a run on the other, with the same result up to this line. -/
theorem run_endOn {σ τ : Type} [TokenStream σ] [TokenStream τ] {stream last final : σ}
    {stream' last' : τ} {taskBound rounds : Nat} (hg : g.Compiled) (hr : g.Resolved)
    (hm : g.Fits (expected m.stack)) (hends : ∃ x ∈ t :: us, x.name = g.terminalName 0)
    (hgives : Gives last stream us)
    (hgives' : Gives last' stream' (us.map (Token.endOn (g.terminalName 0) line)))
    (hrun : run g taskBound rounds m t stream = .done result final) :
    ∃ final', run g taskBound rounds m (t.endOn (g.terminalName 0) line) stream' =
      .done (result.mapError (ParseError.endOn (g.terminalName 0) line)) final' := by
  induction rounds generalizing m t us stream stream' with
  | zero => cases hrun
  | succ rounds ih =>
    unfold run at hrun ⊢
    rw [Machine.settle_endOn]
    cases hsettle : m.settle g t (m.bound taskBound) with
    | none =>
      rw [hsettle] at hrun
      cases hrun
    | some halt =>
      have htells := tells_of_settle hg hr hm hsettle
      rw [hsettle] at hrun
      cases halt with
      | accept machine =>
        cases hrun
        refine ⟨stream', congrArg (Progress.done · stream') ?_⟩
        unfold Machine.result
        split <;> rfl
      | fail e =>
        cases hrun
        exact ⟨stream', rfl⟩
      | read machine =>
        -- The end of the input is not read, so there is a token after this one.
        obtain ⟨hname, hfits, -⟩ := htells
        cases hgives with
        | nil =>
          obtain ⟨x, hx, heof⟩ := hends
          exact absurd (List.mem_singleton.1 hx ▸ heof) hname
        | @cons _ next u us hnext hrest =>
          obtain ⟨x, hx, heof⟩ := hends
          have hx : x ∈ u :: us :=
            (List.mem_cons.1 hx).resolve_left fun heq => hname (heq ▸ heof)
          cases hgives' with
          | @cons _ next' _ _ hnext' hrest' =>
            dsimp only [Option.map, Halt.endOn] at hrun ⊢
            rw [hnext] at hrun
            rw [hnext']
            exact ih hfits ⟨x, hx, heof⟩ hrest hrest' hrun

end Parse

/-! ## A tokenizer and its tokens -/

theorem TokenStream.Gives.concat {σ : Type} [TokenStream σ] {stream middle last : σ}
    {ts : List Token} {t : Token} (h : Gives middle stream ts)
    (hnext : TokenStream.next middle = (.ok t, last)) : Gives last stream (ts ++ [t]) := by
  induction h with
  | nil => exact .cons hnext .nil
  | cons hfirst _ ih => exact .cons hfirst ih

namespace Tokenizer

variable {s : PatternSet} {config : Config} {input : String} {z last : Tokenizer}
  {tokens : List Token}

theorem Guarded.of_gives (h : s.Compiled) (heof : s.Reserves config.eof) (hz : z.Guarded s config)
    (hgives : Gives last z tokens) : last.Guarded s config := by
  induction hgives with
  | nil => exact hz
  | cons hnext _ ih =>
    refine ih ?_
    have hguarded := (hz.next h heof).1
    rwa [show Tokenizer.next _ = _ from hnext] at hguarded

/-- A tokenizer whose tokens can all be read gives these, and then the end of the input. -/
theorem exists_gives_of_tokenize (h : s.Compiled) (heof : s.Reserves config.eof)
    (hz : z.Guarded s config) (htokens : z.tokenize.1 = .ok tokens) :
    (∀ t ∈ tokens, t.name ≠ config.eof) ∧
      ∃ last line, Gives last z (tokens ++ [.atEnd config.eof line]) := by
  obtain ⟨last, hgives, hnames, -, hlast, hnext⟩ := gives_collect h heof hz
  obtain ⟨⟨name, lexeme, line⟩, hending, rfl⟩ := map_eq_ok_iff.1 htokens
  rw [hending] at hnext
  have hgiven : last.next.1 = .ok { name, lexeme, line } := by rw [hnext]
  obtain rfl : name = config.eof := (hlast _ hgiven).1
  obtain rfl : lexeme = "" := by
    have hmarked := ((hz.of_gives h heof hgives).next h heof).2 _ hgiven
    exact hmarked.eof_iff.1 rfl
  exact ⟨hnames, _, line, hgives.concat hnext⟩

end Tokenizer

namespace Grammar

section

variable {σ τ : Type} [TokenStream σ] [TokenStream τ] {text : String} {config : Config} {g : Grammar}
  {stream last : σ} {stream' last' : τ} {tokens : List Token} {line n n' : Nat}

/-- Two streams that give the same tokens, up to the line of the end of the input, are parsed to the
same result, up to this line. -/
theorem parseTokens_endOn (h : Grammar.parse text config = .ok g)
    (hends : ∃ x ∈ tokens, x.name = config.eof) (hgives : Gives last stream tokens)
    (hgives' : Gives last' stream' (tokens.map (Token.endOn config.eof line)))
    (hn : EndsAfter config.eof n stream)
    (hstream : n ≤ TokenStream.remaining (TokenStream.next stream).2 + 1)
    (hn' : EndsAfter config.eof n' stream')
    (hstream' : n' ≤ TokenStream.remaining (TokenStream.next stream').2 + 1) :
    ∃ result final final', g.parseTokens stream = some (result, final) ∧
      g.parseTokens stream' = some (result.mapError (ParseError.endOn config.eof line), final') := by
  obtain ⟨hcompiled, hrules⟩ := compiled_of_parse h
  obtain ⟨result, final, hrun, hfound⟩ := exists_result_of_endsAfter h hn
  obtain ⟨result', final', hrun', hfound'⟩ := exists_result_of_endsAfter h hn'
  refine ⟨result, final, final', hfound hstream, ?_⟩
  rw [← terminalName_of_parse h] at hends hgives' ⊢
  cases hgives with
  | nil =>
    obtain ⟨x, hx, -⟩ := hends
    cases hx
  | @cons _ next t us hnext hrest =>
    cases hgives' with
    | @cons _ next' _ _ hnext' hrest' =>
      -- Both parses are runs with as many rounds as one likes.
      have hdone := hrun t next hnext (max n n' + 1) (by omega)
      have hdone' := hrun' _ next' hnext' (max n n' + 1) (by omega)
      obtain ⟨final'', hsame⟩ := Parse.run_endOn (m := .start g) hcompiled
        (resolved_of_readRules hrules) (fits_of_parse h) hends hrest hrest' hdone
      rw [hdone'] at hsame
      cases hsame
      exact hfound' hstream'

end

variable {text input : String} {config : Config} {g : Grammar} {s : PatternSet} {z : Tokenizer}
  {tokens : List Token}

/-- For every compiled set of patterns and every configuration that it accepts: if all tokens of an
input can be read, then parsing the input and parsing the list of its tokens give the same tree or the
same error. Only an error at the end of the input is reported for the list on the line of its last
token. -/
theorem parseTokens_ofTokens (hs : s.Compiled) (hz : Tokenizer.configured s input config = .ok z)
    (htokens : z.tokenize.1 = .ok tokens) (h : Grammar.parse text config = .ok g) :
    ∃ result last last', g.parseTokens z = some (result, last) ∧
      g.parseTokens (TokenTape.ofTokens tokens config) = some (result.mapError
        (ParseError.endOn config.eof (TokenTape.ofTokens tokens config).endToken.line), last') := by
  obtain ⟨rfl, heof⟩ := Tokenizer.configured_eq_ok hs hz
  obtain ⟨hnames, final, line, hgives⟩ :=
    Tokenizer.exists_gives_of_tokenize hs heof (Tokenizer.guarded_start s input config) htokens
  obtain ⟨final', hgives'⟩ := (TokenTape.ofTokens tokens config).exists_gives
  have hends : ∃ t ∈ tokens ++ [Token.atEnd config.eof line], t.name = config.eof :=
    ⟨_, List.mem_append_right _ List.mem_cons_self, rfl⟩
  -- The tape gives the same tokens, and then the end of the input on a line of its own.
  have hsame : (tokens ++ [Token.atEnd config.eof line]).map
      (Token.endOn config.eof (TokenTape.ofTokens tokens config).endToken.line) =
        tokens ++ [(TokenTape.ofTokens tokens config).endToken] := by
    have hkept : tokens.map (Token.endOn config.eof
        (TokenTape.ofTokens tokens config).endToken.line) = tokens.map id :=
      List.map_congr_left fun t ht => by simp [Token.endOn, hnames t ht]
    rw [List.map_append, hkept, List.map_id]
    simp [Token.endOn, Token.atEnd, TokenTape.endToken, TokenTape.ofTokens]
  have hgives' : Gives final' (TokenTape.ofTokens tokens config) (List.map _ _) :=
    hsame.symm ▸ hgives'
  refine parseTokens_endOn h hends hgives hgives' (endsAfter_tokenizer rfl) le_rfl
    (TokenTape.ofTokens tokens config).endsAfter ?_
  show tokens.length - 0 ≤ tokens.length - (0 + 1) + 1
  omega

/-- The definitions of the tokens of sums. -/
def sumDefinitions : List Definition :=
  [{ name := "num", regex := "[0123456789]+" }, { name := "plus", regex := "\\+" },
    { name := "open", regex := "\\(" }, { name := "close", regex := "\\)" },
    { name := "skip", regex := "[\\s\\n]+" }]

/-- A sum in parentheses that are not closed fails at the end of the input. The list of its tokens
ends on line 1, where the input ends on line 2. -/
theorem parseTokens_ofTokens_unclosed : ∃ s z tokens g,
    PatternSet.ofDefinitions sumDefinitions = .ok s ∧
    Tokenizer.configured s "(1 + 2\n" {} = .ok z ∧ z.tokenize.1 = .ok tokens ∧
      z.collect.ending = .ok (.atEnd "eof" 2) ∧ Grammar.parse sums {} = .ok g ∧
        ∃ last last' line,
          g.parseTokens z = some (.error (.tokenMismatch "close" "eof" "" line), last) ∧
            g.parseTokens (TokenTape.ofTokens tokens {}) =
              some (.error (.tokenMismatch "close" "eof" "" 1), last') := by
  let tokens : List Token := [⟨"open", "(", 1⟩, ⟨"num", "1", 1⟩, ⟨"plus", "+", 1⟩, ⟨"num", "2", 1⟩]
  have hcheck : ((PatternSet.ofDefinitions sumDefinitions).toOption.any fun s =>
      (Tokenizer.configured s "(1 + 2\n" {}).toOption.any fun z =>
        z.ahead.isEmpty && z.scanner.rest.length ≤ 7 &&
          z.scanner.cut (Scanner.piece z.patterns.dfa) z.config 7 =
            (tokens, .ok (.atEnd "eof" 2))) = true := by
    decide +kernel
  obtain ⟨g, hparse, hfails⟩ := exists_parse_sums_and (fun g =>
    (g.parseTokens (TokenTape.ofTokens tokens {})).map (fun answer => answer.1.map fun _ => ()) =
      some (.error (.tokenMismatch "close" "eof" "" 1)))
    (by decide +kernel)
  cases hs : PatternSet.ofDefinitions sumDefinitions with
  | error e =>
    rw [hs] at hcheck
    cases hcheck
  | ok s =>
    cases hz : Tokenizer.configured s "(1 + 2\n" {} with
    | error e =>
      simp [hs, hz, Except.toOption] at hcheck
    | ok z =>
      simp only [hs, hz, Except.toOption, Option.any_some, Bool.and_eq_true, List.isEmpty_iff,
        decide_eq_true_eq] at hcheck
      obtain ⟨⟨hahead, hbound⟩, hcut⟩ := hcheck
      have hall := (Tokenizer.cut_eq_cut hahead hbound).trans hcut
      have hending : z.collect.ending = .ok (.atEnd "eof" 2) := congrArg Prod.snd hall
      have htokens : z.tokenize.1 = .ok tokens :=
        map_eq_ok_iff.2 ⟨_, hending, congrArg Prod.fst hall⟩
      obtain ⟨result, last, last', hresult, hlist⟩ :=
        parseTokens_ofTokens (.inr ⟨_, hs⟩) hz htokens hparse
      rw [hlist, Option.map_some, Option.some_inj] at hfails
      cases result with
      | ok tree => cases hfails
      | error e =>
        cases e with
        | tokenMismatch expected found lexeme line =>
          obtain ⟨rfl, rfl, rfl, -⟩ := ParseError.tokenMismatch.inj (Except.error.inj hfails)
          exact ⟨s, z, tokens, g, rfl, hz, htokens, hending, hparse, last, last', line, hresult,
            hlist⟩
        | unexpectedToken | noTree | tokenize => cases hfails

end Grammar

end Predictive
