import Predictive.Proofs.History
import Predictive.Proofs.LongestMatch

/-!
# The end of the input

Whatever was asked for before, a token has the name of the end of the input just if it has no
characters, and is only given when no input is left (`Tokenizer.marksEnd_run`). So no input can hold a
token that looks like its end, reading all tokens ends, and at the end the same token is read again
and again.
-/

namespace Predictive

open TokenStream (Call Gives run run_append_singleton)

/-- No pattern that gives tokens has that name. -/
def PatternSet.Reserves (s : PatternSet) (name : String) : Prop :=
  ∀ p ∈ s.patterns, p.definition.internal = false → p.definition.name ≠ name

/-! ## Pieces -/

namespace Scanner

variable {s : PatternSet} {config : Config} {d : Dfa} {scanner next : Scanner} {token : Token}

/-- A piece has characters and the name of a pattern that gives tokens. -/
theorem token_of_piece (h : s.Compiled) (hrest : scanner.rest.isEmpty = false)
    (hpiece : scanner.piece s.dfa = (.ok token, next)) :
    token.lexeme ≠ "" ∧
      ∃ p ∈ s.patterns, p.definition.internal = false ∧ token.name = p.definition.name := by
  have hne : scanner.rest ≠ [] := fun hnil => by simp [hnil] at hrest
  rcases h.piece_cases {} hne scanner.line with
    ⟨p, rest, q, -, -, hp, hnamed, heq⟩ | ⟨e, after, heq, -⟩
  · obtain rfl := Except.ok.inj (congrArg Prod.fst (hpiece.symm.trans heq))
    obtain ⟨hmem, hinternal⟩ := PatternSet.mem_of_namedBy? hnamed
    refine ⟨fun hempty => hp ?_, q, hmem, hinternal, rfl⟩
    simpa using congrArg String.toList hempty
  · cases hpiece.symm.trans heq

theorem rest_suffix_of_piece (d : Dfa) (scanner : Scanner) :
    (scanner.piece d).2.rest <:+ scanner.rest := by
  have happend := d.munch_append 0 scanner.rest
  unfold piece
  dsimp only
  split <;> exact ⟨_, happend⟩

theorem rest_suffix_of_scan (d : Dfa) (config : Config) (scanner : Scanner) :
    (scanner.scan d config).scanner.rest <:+ scanner.rest := by
  fun_induction scan d config scanner with
  | case1 => exact List.suffix_rfl
  | case2 scanner _ e next hpiece | case4 scanner _ token next hpiece =>
    simpa [hpiece] using rest_suffix_of_piece d scanner
  | case3 scanner _ token next hpiece _ scan ih =>
    have hnext : next.rest <:+ scanner.rest := by
      simpa [hpiece] using rest_suffix_of_piece d scanner
    exact ih.trans hnext

/-- Each piece that is discarded takes a character from the input. -/
theorem length_skipped_scan (d : Dfa) (config : Config) (scanner : Scanner) :
    (scanner.scan d config).skipped.length + (scanner.scan d config).scanner.rest.length ≤
      scanner.rest.length := by
  fun_induction scan d config scanner with
  | case1 => simp
  | case2 scanner _ e next hpiece | case4 scanner _ token next hpiece =>
    have hsuffix := (rest_suffix_of_piece d scanner).length_le
    simpa [hpiece] using hsuffix
  | case3 scanner _ token next hpiece _ scan ih =>
    have hlt := length_rest_of_piece hpiece
    have hskipped : (token :: scan.skipped).length + scan.scanner.rest.length =
        scan.skipped.length + scan.scanner.rest.length + 1 := by
      rw [List.length_cons, Nat.add_right_comm]
    exact hskipped ▸ Nat.lt_of_le_of_lt ih hlt

/-- The token has the name of the end of the input just if it has no characters, and if it has it no
input is left. -/
structure Marked (eof : String) (scanner : Scanner) (token : Token) : Prop where
  eof_iff : token.name = eof ↔ token.lexeme = ""
  consumed : token.name = eof → scanner.rest = []

/-- What a scanner gives is the end of the input just where it should be. -/
theorem marked_scan (h : s.Compiled) (heof : s.Reserves config.eof)
    (htoken : (scanner.scan s.dfa config).outcome = .ok token) :
    Marked config.eof (scanner.scan s.dfa config).scanner token := by
  fun_induction scan s.dfa config scanner with
  | case1 scanner hrest =>
    cases htoken
    exact ⟨iff_of_true rfl rfl, fun _ => List.isEmpty_iff.1 hrest⟩
  | case2 => cases htoken
  | case3 _ _ _ _ _ _ _ ih => exact ih htoken
  | case4 scanner hrest given next hpiece =>
    cases htoken
    obtain ⟨hlexeme, p, hp, hinternal, hname⟩ :=
      token_of_piece h (Bool.eq_false_iff.2 hrest) hpiece
    have hne : token.name ≠ config.eof := hname ▸ heof p hp hinternal
    exact ⟨iff_of_false hne hlexeme, fun heq => absurd heq hne⟩

end Scanner

open Scanner (Marked)

namespace Tokenizer

variable {s : PatternSet} {config : Config} {input : String} {z last : Tokenizer} {token : Token}

/-! ## Calls in any order -/

/-- The tokens that are kept have the name of the end of the input just where they should. -/
structure Guarded (s : PatternSet) (config : Config) (z : Tokenizer) : Prop where
  patterns_eq : z.patterns = s
  config_eq : z.config = config
  kept : ∀ token ∈ z.past ++ z.ahead, z.scanner.Marked config.eof token

namespace Guarded

theorem scan_eq (hz : z.Guarded s config) : z.scan = z.scanner.scan s.dfa config := by
  rw [scan, hz.patterns_eq, hz.config_eq]

/-- Tokens stay marked as the input is read on. -/
theorem marked_next (hz : z.Guarded s config) (hmarked : z.scanner.Marked config.eof token) :
    z.scan.scanner.Marked config.eof token := by
  refine ⟨hmarked.eof_iff, fun hname => ?_⟩
  have hrest := hmarked.consumed hname
  have hsuffix := Scanner.rest_suffix_of_scan s.dfa config z.scanner
  rw [hrest, List.suffix_nil] at hsuffix
  rw [hz.scan_eq, hsuffix]

/-- The next token has the name of the end of the input just where it should, and so have the tokens
that are then kept. -/
theorem next (h : s.Compiled) (heof : s.Reserves config.eof) (hz : z.Guarded s config) :
    z.next.2.Guarded s config ∧
      ∀ token, z.next.1 = .ok token → z.next.2.scanner.Marked config.eof token := by
  cases hahead : z.ahead with
  | cons first ahead =>
    rw [next_of_cons hahead]
    have hkept := hz.kept
    rw [hahead] at hkept
    refine ⟨⟨hz.patterns_eq, hz.config_eq, fun token htoken => hkept token ?_⟩, fun token htoken => ?_⟩
    · simpa [or_assoc, or_comm, or_left_comm] using htoken
    · cases htoken
      exact hkept _ (by simp)
  | nil =>
    have hold : ∀ token ∈ z.past, z.scan.scanner.Marked config.eof token := fun token htoken =>
      hz.marked_next (hz.kept token (List.mem_append_left _ htoken))
    cases hscan : z.scan.outcome with
    | error e =>
      rw [next_of_nil_of_error hahead hscan]
      refine ⟨⟨hz.patterns_eq, hz.config_eq, fun token htoken => hold token ?_⟩, nofun⟩
      simpa [hahead] using htoken
    | ok read =>
      have hread : z.scan.scanner.Marked config.eof read := by
        rw [hz.scan_eq] at hscan ⊢
        exact Scanner.marked_scan h heof hscan
      rw [next_of_nil_of_ok hahead hscan]
      refine ⟨⟨hz.patterns_eq, hz.config_eq, fun token htoken => ?_⟩, fun token htoken => ?_⟩
      · have htoken : token ∈ read :: z.past := by
          simp only [keep, hahead, List.append_nil] at htoken
          exact List.mem_of_mem_take htoken
        rcases List.mem_cons.1 htoken with rfl | htoken
        · exact hread
        · exact hold token htoken
      · cases htoken
        exact hread

theorem run (h : s.Compiled) (heof : s.Reserves config.eof) (hz : z.Guarded s config) (call : Call) :
    (call.run z).Guarded s config := by
  cases call with
  | next => exact (hz.next h heof).1
  | push =>
    cases hpast : z.past with
    | nil =>
      rw [Call.run_push_of_error (push_of_nil hpast)]
      exact hz
    | cons first past =>
      rw [Call.run_push_of_ok (push_of_cons hpast)]
      refine ⟨hz.patterns_eq, hz.config_eq, fun token htoken => hz.kept token ?_⟩
      simpa [hpast, or_comm, or_left_comm] using htoken

end Guarded

theorem guarded_start (s : PatternSet) (input : String) (config : Config) :
    (start s input config).Guarded s config :=
  ⟨rfl, rfl, fun _ htoken => absurd htoken List.not_mem_nil⟩

theorem guarded_run (h : s.Compiled) (heof : s.Reserves config.eof) (hz : z.Guarded s config)
    (calls : List Call) : (run calls z).Guarded s config := by
  induction calls using List.reverseRecOn with
  | nil => exact hz
  | append_singleton calls call ih =>
    rw [run_append_singleton]
    exact ih.run h heof call

/-- A call leaves the scanner where it is, or lets it read on. -/
theorem scanner_run_cases (call : Call) (z : Tokenizer) :
    (call.run z).scanner = z.scanner ∨ (call.run z).scanner = z.scan.scanner := by
  cases call with
  | push => exact .inl (scanner_run_push z)
  | next =>
    show z.next.2.scanner = _ ∨ z.next.2.scanner = _
    cases hahead : z.ahead with
    | cons first ahead => exact .inl (by rw [next_of_cons hahead])
    | nil => exact .inr (next_of_ahead_eq_nil hahead).2.2

/-- What is left of the input is its end. -/
theorem rest_suffix_run (calls : List Call) (z : Tokenizer) :
    (run calls z).scanner.rest <:+ z.scanner.rest := by
  induction calls using List.reverseRecOn with
  | nil => exact List.suffix_rfl
  | append_singleton calls call ih =>
    rw [run_append_singleton]
    refine List.IsSuffix.trans ?_ ih
    rcases scanner_run_cases call (run calls z) with heq | heq
    · rw [heq]
    · rw [heq]
      exact Scanner.rest_suffix_of_scan ..

/-- At the end of the input nothing else is read. -/
theorem Guarded.reads_of_rest_eq_nil (h : s.Compiled) (heof : s.Reserves config.eof)
    (hz : z.Guarded s config) (hrest : z.scanner.rest = []) (calls : List Call) :
    ∀ outcome ∈ reads calls z, outcome = .ok (.atEnd config.eof z.scanner.line) := by
  induction calls generalizing z with
  | nil => exact fun _ houtcome => absurd houtcome List.not_mem_nil
  | cons call calls ih =>
    have hscan : z.scan = ⟨[], .ok (.atEnd config.eof z.scanner.line), z.scanner⟩ := by
      rw [hz.scan_eq, Scanner.scan_of_isEmpty (List.isEmpty_iff.2 hrest)]
    have hscanner : (call.run z).scanner = z.scanner := by
      rcases scanner_run_cases call z with heq | heq
      · exact heq
      · rw [heq, hscan]
    intro outcome houtcome
    rcases List.mem_append.1 houtcome with hfresh | hlater
    · cases call with
      | push => exact absurd hfresh List.not_mem_nil
      | next =>
        have houtcome : outcome = z.scan.outcome := by
          simp only [fresh] at hfresh
          split at hfresh
          · exact List.mem_singleton.1 hfresh
          · exact absurd hfresh List.not_mem_nil
        rw [houtcome, hscan]
    · rw [← hscanner]
      exact ih (hz.run h heof call) (hscanner ▸ hrest) outcome hlater

/-! ## Reading all tokens -/

/-- Reading all tokens takes no more calls than are announced, up to one that gives the end of the
input or an error. -/
theorem gives_collect (h : s.Compiled) (heof : s.Reserves config.eof) (hz : z.Guarded s config) :
    ∃ last, Gives last z z.collect.tokens ∧ (∀ token ∈ z.collect.tokens, token.name ≠ config.eof) ∧
      z.collect.tokens.length + last.remaining ≤ z.remaining ∧
      (∀ token, last.next.1 = .ok token → token.name = config.eof ∧ last.next.2.scanner.rest = []) ∧
      last.next = (z.collect.ending, z.collect.tokenizer) := by
  fun_induction collect z with
  | case1 z e next hnext =>
    refine ⟨z, .nil, by simp, by simp, ?_, hnext⟩
    rw [hnext]
    nofun
  | case2 z token next hnext hname =>
    rw [hz.config_eq] at hname
    refine ⟨z, .nil, by simp, by simp, fun given hgiven => ?_, hnext⟩
    obtain rfl : token = given := by
      rw [hnext] at hgiven
      exact Except.ok.inj hgiven
    exact ⟨hname, ((hz.next h heof).2 token hgiven).consumed hname⟩
  | case3 z token next hnext hname rest ih =>
    have hguarded : next.Guarded s config := by
      simpa [hnext] using (hz.next h heof).1
    obtain ⟨last, hgives, hnames, hlength, hlast, heq⟩ := ih hguarded
    have hlt := remaining_next hnext hname
    rw [hz.config_eq] at hname
    refine ⟨last, .cons hnext hgives, List.forall_mem_cons.2 ⟨hname, hnames⟩, ?_, hlast, heq⟩
    show rest.tokens.length + 1 + last.remaining ≤ z.remaining
    exact Nat.add_right_comm .. ▸ Nat.lt_of_le_of_lt hlength hlt

/-- How the end of the input shows in what a tokenizer gives, now and from now on. -/
structure MarksEnd (eof : String) (z : Tokenizer) : Prop where
  /-- A token has the name of the end of the input just if it has no characters. -/
  eof_iff (token : Token) (h : z.next.1 = .ok token) : token.name = eof ↔ token.lexeme = ""
  /-- The end is only given when no input is left. -/
  consumed (token : Token) (h : z.next.1 = .ok token) (hname : token.name = eof) :
    z.next.2.scanner.rest = []
  /-- The next token is found after discarding no more pieces than there are characters. -/
  skipped : z.scan.skipped.length + z.scan.scanner.rest.length ≤ z.scanner.rest.length
  /-- All tokens can be read: the calls give a bounded number of them, and then the end of the input
  or an error. -/
  tokenize : ∃ tokens last, Gives last z tokens ∧ (∀ token ∈ tokens, token.name ≠ eof) ∧
    tokens.length + last.remaining ≤ z.remaining ∧
    (∀ token, last.next.1 = .ok token → token.name = eof ∧ last.next.2.scanner.rest = []) ∧
    z.tokenize = (last.next.1.map fun _ => tokens, last.next.2)
  /-- When no input is left, whatever is read is the same token. -/
  exhausted (h : z.scanner.rest = []) (calls : List Call) :
    ∀ outcome ∈ reads calls z, outcome = .ok (.atEnd eof z.scanner.line)

/-- The tokenizer was given the input, with the default configuration or with one that it accepts. -/
inductive Opened (s : PatternSet) (input : String) : Tokenizer → Prop
  | ofText : Opened s input (ofText s input)
  | configured {config : Config} {z : Tokenizer} : configured s input config = .ok z →
      Opened s input z

theorem Opened.exists_start (h : s.Compiled) (hz : Opened s input z) :
    ∃ config, z = start s input config ∧ s.Reserves config.eof := by
  cases hz with
  | ofText =>
    obtain ⟨patterns, hdefined, rfl⟩ := h.exists_defined
    exact ⟨{}, rfl, fun p hp _ hname => hdefined.eofName_notMem (List.mem_map.2 ⟨p, hp, hname⟩)⟩
  | configured hz => exact ⟨_, configured_eq_ok h hz⟩

/-- For every compiled set of patterns, every input and every tokenizer that it gets, after any calls:
a token has the name of the end of the input just if it has no characters, and is then only given when
no input is left. All tokens can be read, and where no input is left the end is read again and again. -/
theorem marksEnd_run (h : s.Compiled) (hz : Opened s input z) (calls : List Call) :
    (run calls z).MarksEnd z.config.eof ∧ (run calls z).scanner.rest <:+ input.toList := by
  obtain ⟨config, rfl, heof⟩ := hz.exists_start h
  have hguarded := guarded_run h heof (guarded_start s input config) calls
  obtain ⟨-, hnext⟩ := hguarded.next h heof
  obtain ⟨last, hgives, hnames, hlength, hlast, heq⟩ := gives_collect h heof hguarded
  refine ⟨?_, rest_suffix_run calls _⟩
  refine {
    eof_iff := fun token htoken => (hnext token htoken).eof_iff
    consumed := fun token htoken => (hnext token htoken).consumed
    skipped := Scanner.length_skipped_scan ..
    tokenize := ⟨_, last, hgives, hnames, hlength, hlast, by rw [heq]; rfl⟩
    exhausted := fun hrest more => ?_ }
  exact hguarded.reads_of_rest_eq_nil h heof hrest more

/-- The end of the input may have the name of a pattern that gives no tokens. No text that this pattern
matches is taken for the end, also not after a step back. -/
theorem marksEnd_run_internal :
    ∃ s z, PatternSet.ofDefinitions [{ name := "end", regex := "1", internal := true },
        { name := "number", regex := "[01]+" }, { name := "skip", regex := "\\s" }] = .ok s ∧
      configured s "10 1" { eof := "end" } = .ok z ∧
      (run [.next, .next, .push] z).MarksEnd "end" ∧
      (run [.next, .next, .push] z).scanner.rest <:+ "10 1".toList := by
  have hcheck : (match PatternSet.ofDefinitions [{ name := "end", regex := "1", internal := true },
        { name := "number", regex := "[01]+" }, { name := "skip", regex := "\\s" }] with
      | .ok s => (configured s "10 1" { eof := "end" }).toOption.any fun z => z.config.eof = "end"
      | .error _ => false) = true := by
    decide +kernel
  split at hcheck
  · next s hs =>
    cases hz : configured s "10 1" { eof := "end" } with
    | error e =>
      rw [hz] at hcheck
      cases hcheck
    | ok z =>
      rw [hz] at hcheck
      have heof : z.config.eof = "end" := of_decide_eq_true hcheck
      have hend := marksEnd_run (.inr ⟨_, hs⟩) (.configured hz) [.next, .next, .push]
      rw [heof] at hend
      exact ⟨s, z, hs, hz, hend⟩
  · cases hcheck

end Tokenizer

end Predictive
