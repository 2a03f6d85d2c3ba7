import Predictive.Proofs.Parsing
import Predictive.Proofs.ParseStack

/-!
# Parsing ends

Between two reads, any machine comes to a halt (`Parse.alwaysHalts`), and one that expects the end
of the input last does not read past it. So a stream that at some time gives nothing but the end of
the input or errors is parsed in as many rounds as it takes to come there
(`Parse.run_of_endsAfter`), and the parse is found if the stream announces that many
(`Grammar.parseTokens_ends`), as tokenizers do.
-/

namespace Predictive

open TokenStream (EndsAfter)

variable {σ : Type} [TokenStream σ] {stream next : σ} {n : Nat} {t : Token}

namespace Parse

variable {g : Grammar} {m : Machine}

/-- The run is done at the latest with the first token after those that the stream gives before its
end. -/
theorem run_of_endsAfter (hg : g.Compiled) (hr : g.Resolved) (hm : g.Fits (expected m.stack))
    (hends : EndsAfter (g.terminalName 0) n stream)
    (hnext : TokenStream.next stream = (.ok t, next)) :
    ∃ result last, ∀ rounds, n < rounds →
      run g (Machine.taskBound g) rounds m t next = .done result last := by
  induction n using Nat.strong_induction_on generalizing m t stream next with
  | _ n ih =>
    -- There is a first round, which ends with a halt.
    suffices h : ∃ result last, ∀ rounds, n ≤ rounds →
        run g (Machine.taskBound g) (rounds + 1) m t next = .done result last by
      obtain ⟨result, last, hrun⟩ := h
      refine ⟨result, last, fun rounds hrounds => ?_⟩
      obtain ⟨k, rfl⟩ := Nat.exists_eq_succ_of_ne_zero (Nat.ne_zero_of_lt hrounds)
      exact hrun k (Nat.le_of_lt_succ hrounds)
    obtain ⟨halt, hsettle⟩ := alwaysHalts hg hr m t
    have htells := tells_of_settle hg hr hm hsettle
    cases halt with
    | accept final =>
      refine ⟨final.result, next, fun rounds _ => ?_⟩
      rw [run, hsettle]
    | fail e =>
      refine ⟨.error e, next, fun rounds _ => ?_⟩
      rw [run, hsettle]
    | read m' =>
      obtain ⟨hname, hm', -⟩ := htells
      obtain ⟨k, rfl⟩ : ∃ k, n = k + 1 := by
        refine Nat.exists_eq_succ_of_ne_zero ?_
        rintro rfl
        exact hname (hends 0 t le_rfl (congrArg Prod.fst hnext))
      rw [TokenStream.endsAfter_succ_iff, hnext] at hends
      obtain ⟨⟨e | t', next'⟩, hnext'⟩ : ∃ given, TokenStream.next next = given := ⟨_, rfl⟩
      · refine ⟨.error (.tokenize e), next', fun rounds hrounds => ?_⟩
        rw [run, hsettle]
        dsimp only
        rw [hnext']
      · obtain ⟨result, last, hrun⟩ := ih k (Nat.lt_succ_self k) hm' hends hnext'
        refine ⟨result, last, fun rounds hrounds => ?_⟩
        rw [run, hsettle]
        dsimp only
        rw [hnext']
        exact hrun rounds hrounds

end Parse

namespace Grammar

variable {text : String} {config : Config} {g : Grammar}

/-- A stream that ends is parsed in any number of rounds that is greater than its calls before the
end, and the parse is found if the stream announces no fewer. -/
theorem exists_result_of_endsAfter (h : Grammar.parse text config = .ok g)
    (hends : EndsAfter config.eof n stream) : ∃ result last,
      (∀ t next, TokenStream.next stream = (.ok t, next) → ∀ rounds, n < rounds →
        Parse.run g (Parse.Machine.taskBound g) rounds (.start g) t next = .done result last) ∧
      (n ≤ TokenStream.remaining (TokenStream.next stream).2 + 1 →
        g.parseTokens stream = some (result, last)) := by
  obtain ⟨hcompiled, hrules⟩ := compiled_of_parse h
  rw [← terminalName_of_parse h] at hends
  obtain ⟨⟨e | t, next⟩, hnext⟩ : ∃ given, TokenStream.next stream = given := ⟨_, rfl⟩
  · refine ⟨.error (.tokenize e), next, fun t' next' hnext' => ?_, fun _ => ?_⟩
    · cases hnext.symm.trans hnext'
    · unfold Grammar.parseTokens
      dsimp only
      rw [hnext]
  · obtain ⟨result, last, hrun⟩ := Parse.run_of_endsAfter (m := .start g) hcompiled
      (resolved_of_readRules hrules) (fits_of_parse h) hends hnext
    refine ⟨result, last, fun t' next' hnext' rounds hrounds => ?_, fun hannounced => ?_⟩
    · cases hnext.symm.trans hnext'
      exact hrun rounds hrounds
    · rw [hnext] at hannounced
      exact parseTokens_of_run hnext fun rounds hrounds =>
        hrun rounds (Nat.lt_of_le_of_lt hannounced hrounds)

/-- A tokenizer ends after as many calls as it announces once a token is read, and that call. -/
theorem endsAfter_tokenizer {tokenizer : Tokenizer} (heof : tokenizer.config.eof = config.eof) :
    EndsAfter config.eof (tokenizer.next.2.remaining + 1) tokenizer := by
  rw [← heof, ← tokenizer.next_keeps.2, TokenStream.endsAfter_succ_iff]
  exact tokenizer.next.2.endsAfter

/-- A tokenizer with the same name for the end of the input is always parsed to a result. -/
theorem exists_parseTokens_tokenizer (h : Grammar.parse text config = .ok g) {tokenizer : Tokenizer}
    (heof : tokenizer.config.eof = config.eof) :
    ∃ result last, g.parseTokens tokenizer = some (result, last) := by
  obtain ⟨result, last, -, hfound⟩ := exists_result_of_endsAfter h (endsAfter_tokenizer heof)
  exact ⟨result, last, hfound le_rfl⟩

/-- Between two reads, any machine comes to a halt within its bound, and so every stream that at
some time gives nothing but the end of the input or errors is parsed to a result. -/
theorem parseTokens_ends (h : Grammar.parse text config = .ok g) (stream : σ) :
    (∀ (m : Parse.Machine) (t : Token),
      ∃ halt, m.settle g t (m.bound (Parse.Machine.taskBound g)) = some halt) ∧
    ∀ n, EndsAfter config.eof n stream → ∃ result last,
      (∀ t next, TokenStream.next stream = (.ok t, next) → ∀ rounds, n < rounds →
        Parse.run g (Parse.Machine.taskBound g) rounds (.start g) t next = .done result last) ∧
      (n ≤ TokenStream.remaining (TokenStream.next stream).2 + 1 →
        g.parseTokens stream = some (result, last)) := by
  obtain ⟨hcompiled, hrules⟩ := compiled_of_parse h
  exact ⟨Parse.alwaysHalts hcompiled (resolved_of_readRules hrules),
    fun n hends => exists_result_of_endsAfter h hends⟩

/-- The tape of a sum ends after its tokens, so its parse is found. -/
theorem parseTokens_ends_sums : ∃ g, Grammar.parse sums {} = .ok g ∧
    EndsAfter eofName 3 (TokenTape.ofTokens sumTokens {}) ∧
      ∃ result last, g.parseTokens (TokenTape.ofTokens sumTokens {}) = some (result, last) := by
  obtain ⟨g, hparse, -⟩ := exists_parse_sums
  have hends := (TokenTape.ofTokens sumTokens {}).endsAfter
  obtain ⟨-, hparsed⟩ := parseTokens_ends hparse (TokenTape.ofTokens sumTokens {})
  obtain ⟨result, last, -, hfound⟩ := hparsed 3 hends
  exact ⟨g, hparse, hends, result, last, hfound (by decide)⟩

end Grammar

end Predictive
