import Predictive.Proofs.Parsing
import Predictive.Proofs.ParseStack

/-!
# A parse ends with the first token that decides it

A parse reads no further than it has to. An error that tells of a token tells of the first one with
which the tokens read are no longer the beginning of a sentence, and a tree is found as soon as the
end of the input is read (`Grammar.parseTokens_earliest`). Calls are counted by parsing a stream
that counts them (`CountedStream`).
-/

namespace Predictive

open TokenStream (Gives)

/-! ## Where a parse ends -/

namespace Parse

/-- An accepting machine without a tree tells of no token. -/
theorem Machine.token?_of_result {m : Machine} {e : ParseError} (h : m.result = .error e) :
    e.token? = none := by
  unfold Machine.result at h
  split at h
  · cases h
  · cases h
    rfl

/-- A parse that reads `tokens` has the result when it finds the token after them. -/
structure EndsAt (g : Grammar) (result : Except ParseError Node) (tokens : List Token)
    (found : Token) : Prop where
  live : g.LivePrefix [g.start, g.eof] tokens
  names : ∀ t ∈ tokens, t.name ≠ g.terminalName 0
  error : ∀ e t, result = .error e → e.token? = some t →
    t = found ∧ ¬ g.LivePrefix [g.start, g.eof] (tokens ++ [found])
  tree : ∀ tree, result = .ok tree → found.name = g.terminalName 0

variable {g : Grammar} {final : Machine} {halt : Halt} {tokens : List Token} {found : Token}
  {result : Except ParseError Node} {steps : Nat}

/-- The result of a halt after tokens that are read from the start. -/
theorem ReadsTo.endsAt (hg : g.Compiled) (hr : g.Resolved)
    (hstart : g.Fits (expected (Machine.start g).stack)) (h : ReadsTo g final (.start g) tokens)
    (hsettle : final.settle g found steps = some halt) (hresult : halt.result? = some result) :
    EndsAt g result tokens found := by
  obtain ⟨hfinal, hlive, hnames⟩ := h.fits hg hr hstart
  have htells := tells_of_settle hg hr hfinal hsettle
  have hread : g.LivePrefix [g.start, g.eof] tokens := by
    rw [← List.append_nil tokens]
    exact (hlive []).2 Grammar.RuleSet.livePrefix_nil
  cases halt with
  | read next => cases hresult
  | accept m =>
    obtain rfl := Option.some.inj hresult
    refine ⟨hread, hnames, fun e t he ht => ?_, fun _ _ => htells⟩
    rw [Machine.token?_of_result he] at ht
    cases ht
  | fail e =>
    obtain rfl := Option.some.inj hresult
    obtain ⟨htoken, hdead⟩ := htells
    refine ⟨hread, hnames, fun e' t he ht => ?_, fun tree htree => nomatch htree⟩
    cases he
    exact ⟨Option.some.inj (ht.symm.trans htoken), fun h => hdead ((hlive [found]).1 h)⟩

end Parse

namespace Grammar

variable {σ : Type} [TokenStream σ] {text : String} {config : Config} {g : Grammar}
  {stream last : σ} {result : Except ParseError Node}

/-- A parse that is not ended by the stream ends at the last token that it is given. -/
theorem exists_endsAt_of_parseTokens (h : Grammar.parse text config = .ok g)
    (hparse : g.parseTokens stream = some (result, last))
    (hresult : ∀ e, result ≠ .error (.tokenize e)) :
    ∃ tokens found, Gives last stream (tokens ++ [found]) ∧
      Parse.EndsAt g result tokens found := by
  obtain ⟨hcompiled, hrules⟩ := compiled_of_parse h
  rcases exists_run_of_parseTokens hparse with ⟨e, he⟩ | ⟨t, next, rounds, hnext, hrun⟩
  · exact absurd he (hresult e)
  rcases Parse.run_cases hnext hrun with ⟨e, he⟩ | ⟨u, found, m, halt, steps, hreads, hgives, hhalt⟩
  · exact absurd he (hresult e)
  exact ⟨u, found, hgives,
    hreads.endsAt hcompiled (resolved_of_readRules hrules) (fits_of_parse h) hhalt.1 hhalt.2⟩

/-- The same, with the calls of the stream counted. -/
theorem exists_calls_of_parseTokens (h : Grammar.parse text config = .ok g)
    (hparse : g.parseTokens stream = some (result, last))
    (hresult : ∀ e, result ≠ .error (.tokenize e)) :
    ∃ tokens found, Gives last stream (tokens ++ [found]) ∧
      g.parseTokens ({ stream } : CountedStream σ) =
        some (result, { stream := last, reads := tokens.length + 1 }) ∧
      Parse.EndsAt g result tokens found := by
  have hmap := parseTokens_map CountedStream.maps_stream g ({ stream } : CountedStream σ)
  obtain ⟨⟨_, counted⟩, hcounted, heq⟩ := Option.map_eq_some_iff.1 (hmap.symm.trans hparse)
  cases heq
  obtain ⟨tokens, found, hgives, hends⟩ := exists_endsAt_of_parseTokens h hcounted hresult
  obtain ⟨hreads, hpushes⟩ := CountedStream.calls_of_gives hgives
  refine ⟨tokens, found, hgives.map CountedStream.maps_stream, ?_, hends⟩
  rw [List.length_append, List.length_singleton, Nat.zero_add] at hreads
  rw [hcounted, ← hreads]
  change counted.pushes = 0 at hpushes
  rw [← hpushes]

/-- A parse that fails with an error that tells of a token fails at the first token that cannot
come after those before, and one with a tree ends with the first token that is the end of the
input. Either has asked for these tokens, each once, and did not step back. -/
theorem parseTokens_earliest (h : Grammar.parse text config = .ok g) :
    (∀ e t, g.parseTokens stream = some (.error e, last) → e.token? = some t →
      ∃ tokens, Gives last stream (tokens ++ [t]) ∧
        g.LivePrefix [g.start, g.eof] tokens ∧ ¬ g.LivePrefix [g.start, g.eof] (tokens ++ [t]) ∧
          g.parseTokens ({ stream } : CountedStream σ) =
            some (.error e, { stream := last, reads := tokens.length + 1, pushes := 0 })) ∧
    ∀ tree, g.parseTokens stream = some (.ok tree, last) →
      ∃ tokens ending, Gives last stream (tokens ++ [ending]) ∧
        ending.name = config.eof ∧ (∀ t ∈ tokens, t.name ≠ config.eof) ∧
          g.parseTokens ({ stream } : CountedStream σ) =
            some (.ok tree, { stream := last, reads := tokens.length + 1, pushes := 0 }) := by
  constructor
  · intro e t hparse ht
    have htoken : ∀ e', Except.error e ≠ (.error (.tokenize e') : Except ParseError Node) := by
      rintro e' ⟨⟩
      cases ht
    obtain ⟨tokens, found, hgives, hcalls, hends⟩ := exists_calls_of_parseTokens h hparse htoken
    obtain ⟨rfl, hdead⟩ := hends.error e t rfl ht
    exact ⟨tokens, hgives, hends.live, hdead, hcalls⟩
  · intro tree hparse
    obtain ⟨tokens, found, hgives, hcalls, hends⟩ :=
      exists_calls_of_parseTokens h hparse fun e he => nomatch he
    rw [← terminalName_of_parse h]
    exact ⟨tokens, found, hgives, hends.tree tree rfl, hends.names, hcalls⟩

/-- In a sum without its operator, the second number cannot come, so two tokens are read; of a whole
sum, all tokens are read and the end of the input. -/
theorem parseTokens_earliest_sums : ∃ g, Grammar.parse sums {} = .ok g ∧
    (∃ e last, e.token? = sumTokens[2]? ∧
      g.parseTokens ({ stream := .ofTokens (sumTokens.eraseIdx 1) {} } : CountedStream TokenTape) =
        some (.error e, { stream := last, reads := 2 }) ∧
      g.LivePrefix [g.start, g.eof] (sumTokens.take 1) ∧
        ¬ g.LivePrefix [g.start, g.eof] (sumTokens.eraseIdx 1)) ∧
    ∃ tree last, g.parseTokens ({ stream := .ofTokens sumTokens {} } : CountedStream TokenTape) =
      some (.ok tree, { stream := last, reads := 4 }) := by
  obtain ⟨g, hparse, -, ⟨tree, last, hsum⟩, -⟩ := exists_parse_sums
  obtain ⟨g', hparse', hfail⟩ := exists_parse_sums_and (fun g =>
    (g.parseTokens (TokenTape.ofTokens (sumTokens.eraseIdx 1) {})).bind (fun answer =>
      match answer.1 with
      | .error e => e.token?.map fun t => (t, answer.2.position)
      | .ok _ => none) = some ({ name := "num", lexeme := "2", line := 1 }, 2))
    (by decide +kernel)
  obtain rfl : g = g' := Except.ok.inj (hparse.symm.trans hparse')
  obtain ⟨⟨result, last'⟩, hother, herror⟩ := Option.bind_eq_some_iff.1 hfail
  cases result with
  | ok tree => cases herror
  | error e =>
    obtain ⟨t, ht, heq⟩ := Option.map_eq_some_iff.1 herror
    obtain ⟨rfl, hposition⟩ := Prod.mk.inj heq
    obtain ⟨us, hus, hlive, hdead, hcalls⟩ := (parseTokens_earliest hparse).1 e _ hother ht
    obtain ⟨vs, ending, hvs, hending, hnames, hcalls'⟩ :=
      (parseTokens_earliest hparse).2 tree hsum
    have hlength : last'.position = 0 + (us ++ [_]).length := TokenTape.position_of_gives hus
    rw [hposition, List.length_append, List.length_singleton] at hlength
    obtain ⟨t, rfl⟩ := List.length_eq_one_iff.1 (show us.length = 1 by omega)
    have hread : t = { name := "num", lexeme := "1", line := 1 } := by
      cases hus with
      | cons hnext _ => exact (Except.ok.inj (Prod.mk.inj hnext).1).symm
    have hall := TokenTape.eq_drop_of_gives hvs hnames hending
      (show ∀ t ∈ sumTokens, _ from by decide)
    subst hread hall
    exact ⟨g, hparse, ⟨e, last', ht, hcalls, hlive, hdead⟩, tree, last, hcalls'⟩

end Grammar

end Predictive
