import Predictive.Proofs.EndOfInput
import Mathlib.Data.Set.Card

/-!
# Line numbers

A line feed, a carriage return or the two in this order break a line (`LineBreak`), and the line of a
place in the input is one more than the line breaks before it (`lineAt`). A scanner finds the breaks one
character at a time, looking at the next one, and counts each where it ends. So it has the line of the
place where it stands, also between the two characters of a break (`Scanner.Counts`), whatever was read,
discarded or refused before (`Tokenizer.countsLines_run`).
-/

namespace Predictive

/-! ## Line breaks -/

/-- From place `i` of the input up to place `j` there is a line break. -/
inductive LineBreak (input : List Char) : Nat → Nat → Prop
  /-- A line feed, if no carriage return comes before it. -/
  | feed {i : Nat} : input[i]? = some '\n' → (∀ k, i = k + 1 → input[k]? ≠ some '\r') →
      LineBreak input i (i + 1)
  /-- A carriage return and a line feed. -/
  | pair {i : Nat} : input[i]? = some '\r' → input[i + 1]? = some '\n' → LineBreak input i (i + 2)
  /-- A carriage return, if no line feed follows. -/
  | bare {i : Nat} : input[i]? = some '\r' → input[i + 1]? ≠ some '\n' → LineBreak input i (i + 1)

/-- The line breaks that are completed before place `n`. -/
def breaksUntil (input : List Char) (n : Nat) : Set (Nat × Nat) :=
  {b | LineBreak input b.1 b.2 ∧ b.2 ≤ n}

/-- The line of place `n` of the input, counted from 1. -/
noncomputable def lineAt (input : List Char) (n : Nat) : Nat := 1 + (breaksUntil input n).ncard

namespace LineBreak

variable {input : List Char} {i j k n : Nat}

theorem lt (h : LineBreak input i j) : i < j := by
  cases h <;> omega

/-- A line break ends with a line feed, or with a carriage return that none follows. -/
theorem exists_iff : (∃ i, LineBreak input i (n + 1)) ↔
    input[n]? = some '\n' ∨ (input[n]? = some '\r' ∧ input[n + 1]? ≠ some '\n') := by
  constructor
  · rintro ⟨i, hbreak⟩
    cases hbreak with
    | feed hfeed => exact .inl hfeed
    | pair hreturn hfeed => exact .inl hfeed
    | bare hreturn hfeed => exact .inr ⟨hreturn, hfeed⟩
  · rintro (hfeed | ⟨hreturn, hfeed⟩)
    · by_cases hpair : ∃ k, n = k + 1 ∧ input[k]? = some '\r'
      · obtain ⟨k, rfl, hreturn⟩ := hpair
        exact ⟨k, .pair hreturn hfeed⟩
      · exact ⟨n, .feed hfeed fun k hk hreturn => hpair ⟨k, hk, hreturn⟩⟩
    · exact ⟨n, .bare hreturn hfeed⟩

/-- Different line breaks end at different places. -/
theorem start_unique (h : LineBreak input i n) (h' : LineBreak input j n) : i = j := by
  cases h <;> cases h' <;> grind

end LineBreak

variable {input : List Char} {n : Nat}

theorem finite_breaksUntil (input : List Char) (n : Nat) : (breaksUntil input n).Finite :=
  ((Set.finite_le_nat n).prod (Set.finite_le_nat n)).subset fun _ hb =>
    ⟨(hb.1.lt.trans_le hb.2).le, hb.2⟩

theorem lineAt_zero (input : List Char) : lineAt input 0 = 1 := by
  have hempty : breaksUntil input 0 = ∅ :=
    Set.eq_empty_of_forall_notMem fun b hb => Nat.not_lt_zero _ (hb.1.lt.trans_le hb.2)
  rw [lineAt, hempty, Set.ncard_empty]

/-- Where a line break ends the next line begins. -/
theorem lineAt_succ_of_lineBreak {i : Nat} (h : LineBreak input i (n + 1)) :
    lineAt input (n + 1) = lineAt input n + 1 := by
  have hinsert : breaksUntil input (n + 1) = insert (i, n + 1) (breaksUntil input n) := by
    ext ⟨start, stop⟩
    constructor
    · rintro ⟨hbreak, hle⟩
      rcases Nat.le_succ_iff.1 hle with hle | rfl
      · exact .inr ⟨hbreak, hle⟩
      · obtain rfl := hbreak.start_unique h
        exact .inl rfl
    · rintro (heq | ⟨hbreak, hle⟩)
      · cases heq
        exact ⟨h, Nat.le_refl _⟩
      · exact ⟨hbreak, Nat.le_succ_of_le hle⟩
  have hnew : (i, n + 1) ∉ breaksUntil input n := fun hb => Nat.not_succ_le_self n hb.2
  rw [lineAt, hinsert, Set.ncard_insert_of_notMem hnew (finite_breaksUntil input n), lineAt,
    Nat.add_assoc]

theorem lineAt_succ_of_not (h : ¬ ∃ i, LineBreak input i (n + 1)) :
    lineAt input (n + 1) = lineAt input n := by
  have heq : breaksUntil input (n + 1) = breaksUntil input n := by
    ext ⟨start, stop⟩
    refine and_congr_right fun hbreak => ⟨fun hle => ?_, Nat.le_succ_of_le⟩
    rcases Nat.le_succ_iff.1 hle with hle | rfl
    · exact hle
    · exact absurd ⟨start, hbreak⟩ h
  rw [lineAt, heq, lineAt]

/-- The line breaks that a scanner finds in a piece are those that are completed in it. -/
theorem lineAt_append (before read rest : List Char) :
    lineAt (before ++ (read ++ rest)) (before ++ read).length =
      lineAt (before ++ (read ++ rest)) before.length + lineBreaks read rest := by
  induction read generalizing before with
  | nil => simp [lineBreaks]
  | cons c read ih =>
    have hrest := ih (before ++ [c])
    simp only [List.append_assoc, List.singleton_append, List.length_append,
      List.length_singleton] at hrest
    rw [List.cons_append, List.length_append, hrest, lineBreaks, ← Nat.add_assoc]
    have hhead : (before ++ c :: (read ++ rest))[before.length]? = some c := by simp
    have hnext : (before ++ c :: (read ++ rest))[before.length + 1]? = read.head?.or rest.head? := by
      simp [List.getElem?_append_right, ← List.head?_eq_getElem?]
    have hends : (∃ i, LineBreak (before ++ c :: (read ++ rest)) i (before.length + 1)) ↔
        c = '\n' ∨ (c = '\r' ∧ read.head?.or rest.head? ≠ some '\n') := by
      rw [LineBreak.exists_iff, hhead, hnext, Option.some.injEq, Option.some.injEq]
    congr 1
    split
    · next hc =>
      obtain ⟨i, hbreak⟩ := hends.2 hc
      exact lineAt_succ_of_lineBreak hbreak
    · next hc => exact lineAt_succ_of_not fun hbreak => hc (hends.1 hbreak)

/-! ## Scanners -/

/-- The outcome was read from what comes before `after`, and it carries the line of its first character.
The text of an error has the character at which the reading stopped for its last. -/
inductive CarriesLine (input after : List Char) : Except TokenizeError Token → Prop
  | token {before : List Char} {token : Token} : before ++ (token.lexeme.toList ++ after) = input →
      (token.lexeme = "" → after = []) → token.line = lineAt input before.length →
      CarriesLine input after (.ok token)
  | noSuchToken {before read : List Char} {text : String} {line : Nat} :
      before ++ (read ++ after) = input → text.toList = read ++ after.head?.toList → text ≠ "" →
      line = lineAt input before.length →
      CarriesLine input after (.error (.noSuchToken text line))
  | invalidCharacter {before tail : List Char} {c : Char} {line : Nat} : after = c :: tail →
      before ++ after = input → line = lineAt input before.length →
      CarriesLine input after (.error (.invalidCharacter c line))

namespace Scanner

/-- The line of a scanner is that of the place where it stands. -/
def Counts (scanner : Scanner) (input : List Char) : Prop :=
  ∃ consumed, consumed ++ scanner.rest = input ∧ scanner.line = lineAt input consumed.length

variable {scanner : Scanner}

theorem rest_piece (d : Dfa) (scanner : Scanner) :
    (scanner.piece d).2.rest = (d.munch 0 scanner.rest).rest := by
  unfold piece
  dsimp only
  split <;> rfl

theorem line_piece (d : Dfa) (scanner : Scanner) : (scanner.piece d).2.line = scanner.line +
    lineBreaks (d.munch 0 scanner.rest).lexeme (d.munch 0 scanner.rest).rest := by
  unfold piece
  dsimp only
  split <;> rfl

/-- The error of a piece without a name has the line where the piece begins. -/
theorem carriesLine_fault {before : List Char} {m : Munch} (hne : m.lexeme ++ m.rest ≠ [])
    (happend : before ++ (m.lexeme ++ m.rest) = input) :
    CarriesLine input m.rest (.error (fault m (lineAt input before.length))) := by
  unfold fault
  split
  · next c tail hlexeme hrest =>
    rw [hlexeme] at happend
    split
    · exact .noSuchToken happend (by simp [hrest]) (by simp) rfl
    · exact .invalidCharacter hrest happend rfl
  · refine .noSuchToken happend String.toList_ofList (fun hempty => hne ?_) rfl
    have hempty := congrArg String.toList hempty
    cases hrest : m.rest <;> simp_all

namespace Counts

/-- The line breaks of a piece are counted where it ends, and what is given for it has the line where it
begins. -/
theorem piece (h : scanner.Counts input) (d : Dfa) (hrest : scanner.rest ≠ []) :
    (scanner.piece d).2.Counts input ∧
      CarriesLine input (scanner.piece d).2.rest (scanner.piece d).1 := by
  obtain ⟨consumed, hconsumed, hline⟩ := h
  have hread := d.munch_append 0 scanner.rest
  have happend : consumed ++ ((d.munch 0 scanner.rest).lexeme ++ (d.munch 0 scanner.rest).rest) =
      input := by
    rw [hread, hconsumed]
  have hnext : (scanner.piece d).2.Counts input := by
    refine ⟨consumed ++ (d.munch 0 scanner.rest).lexeme, ?_, ?_⟩
    · rw [rest_piece, List.append_assoc, happend]
    · rw [line_piece, hline, ← happend, lineAt_append]
  refine ⟨hnext, ?_⟩
  unfold Scanner.piece
  dsimp only
  split
  · next c cs owner hlexeme _ =>
    refine .token (by rw [String.toList_ofList, happend]) (fun hempty => ?_) hline
    rw [hlexeme] at hempty
    simpa using congrArg String.toList hempty
  · rw [hline]
    exact carriesLine_fault (by rwa [hread]) happend

theorem scan (h : scanner.Counts input) (d : Dfa) (config : Config) :
    (scanner.scan d config).scanner.Counts input ∧
      CarriesLine input (scanner.scan d config).scanner.rest (scanner.scan d config).outcome := by
  fun_induction Scanner.scan d config scanner with
  | case1 scanner hrest =>
    refine ⟨h, ?_⟩
    obtain ⟨consumed, hconsumed, hline⟩ := h
    exact .token hconsumed (fun _ => List.isEmpty_iff.1 hrest) hline
  | case2 scanner hrest e next hpiece | case4 scanner hrest token next hpiece =>
    have hread := h.piece d fun hnil => hrest (List.isEmpty_iff.2 hnil)
    rwa [hpiece] at hread
  | case3 scanner hrest token next hpiece _ scan ih =>
    have hread := h.piece d fun hnil => hrest (List.isEmpty_iff.2 hnil)
    rw [hpiece] at hread
    exact ih hread.1

end Counts

end Scanner

/-! ## Calls in any order -/

namespace Tokenizer

open TokenStream (Call run run_append_singleton)

variable {z : Tokenizer} {input : List Char} {calls : List Call}

/-- Calls in any order leave the tokenizer with the line of the place where it stands. -/
theorem counts_run (h : z.scanner.Counts input) (calls : List Call) :
    (run calls z).scanner.Counts input := by
  induction calls using List.reverseRecOn with
  | nil => exact h
  | append_singleton calls call ih =>
    rw [run_append_singleton]
    rcases scanner_run_cases call (run calls z) with heq | heq
    · rwa [heq]
    · rw [heq]
      exact (ih.scan _ _).1

/-- What calls read was read by one of them. -/
theorem exists_of_mem_reads {outcome : Except TokenizeError Token} (h : outcome ∈ reads calls z) :
    ∃ earlier, earlier <+: calls ∧ (run earlier z).ahead = [] ∧ (run earlier z).next.1 = outcome := by
  induction calls using List.reverseRecOn with
  | nil => exact absurd h List.not_mem_nil
  | append_singleton calls call ih =>
    rw [reads_append_singleton, List.mem_append] at h
    rcases h with hread | hfresh
    · obtain ⟨earlier, hprefix, hearlier⟩ := ih hread
      exact ⟨earlier, hprefix.trans (List.prefix_append ..), hearlier⟩
    · cases call with
      | push => exact absurd hfresh List.not_mem_nil
      | next =>
        cases hahead : (run calls z).ahead with
        | cons token ahead =>
          rw [fresh_next_of_cons hahead] at hfresh
          exact absurd hfresh List.not_mem_nil
        | nil =>
          rw [fresh_next_of_nil hahead, List.mem_singleton] at hfresh
          exact ⟨calls, List.prefix_append .., hahead,
            (next_of_ahead_eq_nil hahead).1.trans hfresh.symm⟩

/-- A token that is given again was read by one of the calls. -/
theorem exists_of_ahead {token : Token} {ahead : List Token} (h : Keeps z.patterns z.config z [])
    (hahead : (run calls z).ahead = token :: ahead) :
    ∃ earlier, earlier <+: calls ∧ (run earlier z).ahead = [] ∧
      (run earlier z).next.1 = .ok token := by
  obtain ⟨front, hfront⟩ := (keeps_run h calls).exists_append
  have hread : token ∈ tokensRead calls z := by simp [hfront, hahead]
  obtain ⟨outcome, houtcome, htoken⟩ := List.mem_filterMap.1 hread
  obtain rfl : outcome = .ok token := by
    cases outcome <;> simp_all [Except.toOption]
  exact exists_of_mem_reads houtcome

/-- How the lines of the input show after some calls. -/
structure CountsLines (input : List Char) (z : Tokenizer) (calls : List Call) : Prop where
  /-- The tokenizer has the line of the place up to which it has read. -/
  line_eq : ∃ consumed, consumed ++ (run calls z).scanner.rest = input ∧
    (run calls z).scanner.line = lineAt input consumed.length
  /-- What is read from the input, token or error, carries the line of its first character. -/
  fresh (h : (run calls z).ahead = []) :
    CarriesLine input (run calls z).next.2.scanner.rest (run calls z).next.1
  /-- A token that is given again was read by one of the calls, and carries the line that it has had. -/
  again (token : Token) (ahead : List Token) (h : (run calls z).ahead = token :: ahead) :
    (run calls z).next.1 = .ok token ∧
      ∃ earlier, earlier <+: calls ∧ (run earlier z).ahead = [] ∧
        (run earlier z).next.1 = .ok token ∧
        CarriesLine input (run earlier z).next.2.scanner.rest (.ok token)

/-- For every pattern set, configuration and input, after any calls in any order, failed ones included:
the line of the tokenizer is one more than the line breaks completed in what it has read, and every
token and error carries the line of its first character. -/
theorem countsLines_run (s : PatternSet) (input : String) (config : Config) (calls : List Call) :
    CountsLines input.toList (start s input config) calls := by
  have hstart : (start s input config).scanner.Counts input.toList :=
    ⟨[], rfl, (lineAt_zero _).symm⟩
  have hfresh (calls : List Call) (hahead : (run calls (start s input config)).ahead = []) :
      CarriesLine input.toList (run calls (start s input config)).next.2.scanner.rest
        (run calls (start s input config)).next.1 := by
    obtain ⟨houtcome, -, hscanner⟩ := next_of_ahead_eq_nil hahead
    rw [houtcome, hscanner]
    exact ((counts_run hstart calls).scan _ _).2
  refine ⟨counts_run hstart calls, hfresh calls, fun token ahead hahead => ?_⟩
  obtain ⟨earlier, hprefix, hearlier, htoken⟩ := exists_of_ahead (keeps_start s input config) hahead
  exact ⟨congrArg Prod.fst (next_of_cons hahead), earlier, hprefix, hearlier, htoken,
    htoken ▸ hfresh earlier hearlier⟩

end Tokenizer

end Predictive
