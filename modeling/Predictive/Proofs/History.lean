import Predictive.Proofs.Streams
import Mathlib.Data.List.Induction

/-!
# Stepping back over tokens

A tokenizer works like a cursor over the tokens read from its input (`Tokenizer.IsCursor`): the next
token is the one at the cursor, and the input is read only where the cursor is behind the last token. A
step back moves the cursor, down to the oldest token that the history holds. This goes for any calls in
any order, since what is kept are always the tokens read last (`Tokenizer.Keeps`).

A `BufferedTokenizer` keeps its tokens in one buffer, with a count of those to give again. It gives the
same answers as the tokenizer whose tokens it holds (`Tokenizer.buffered_run`).
-/

namespace Predictive

/-! ## Calls in any order -/

namespace TokenStream

/-- What a stream can be asked for. -/
inductive Call
  | next
  | push
deriving DecidableEq

variable {σ : Type} [TokenStream σ]

/-- The stream after a call. A step back that fails leaves the stream as it is. -/
def Call.run (call : Call) (stream : σ) : σ :=
  match call with
  | .next => (TokenStream.next stream).2
  | .push =>
    match TokenStream.push stream with
    | .ok back => back
    | .error _ => stream

theorem Call.run_push_of_ok {stream back : σ} (h : TokenStream.push stream = .ok back) :
    Call.push.run stream = back := by
  simp only [run, h]

theorem Call.run_push_of_error {stream : σ} {e : TokenizeError}
    (h : TokenStream.push stream = .error e) : Call.push.run stream = stream := by
  simp only [run, h]

/-- The stream after several calls. -/
def run (calls : List Call) (stream : σ) : σ := calls.foldl (fun stream call => call.run stream) stream

theorem run_append_singleton (calls : List Call) (call : Call) (stream : σ) :
    run (calls ++ [call]) stream = call.run (run calls stream) := by
  simp [run]

theorem after_succ (n : Nat) (stream : σ) : after (n + 1) stream = (next (after n stream)).2 := by
  induction n generalizing stream with
  | zero => rfl
  | succ n ih => exact ih _

end TokenStream

open TokenStream (Call run run_append_singleton after after_succ)

namespace Tokenizer

variable {s : PatternSet} {config : Config} {t : Tokenizer} {token : Token} {read ahead : List Token}

/-! ## One call -/

theorem next_of_cons (h : t.ahead = token :: ahead) :
    t.next = (.ok token, { t with past := token :: t.past, ahead }) := by
  unfold next
  rw [h]

theorem next_of_nil_of_ok (h : t.ahead = []) (hscan : t.scan.outcome = .ok token) :
    t.next = (.ok token, { t with scanner := t.scan.scanner }.keep token) := by
  unfold next
  rw [h]
  dsimp only
  rw [hscan]

theorem next_of_nil_of_error {e : TokenizeError} (h : t.ahead = [])
    (hscan : t.scan.outcome = .error e) :
    t.next = (.error e, { t with scanner := t.scan.scanner }) := by
  unfold next
  rw [h]
  dsimp only
  rw [hscan]

theorem push_of_cons {past : List Token} (h : t.past = token :: past) :
    t.push = .ok { t with past, ahead := token :: t.ahead } := by
  unfold push
  rw [h]

theorem push_of_nil (h : t.past = []) : t.push = .error (.tooManyPushbacks t.config.history) := by
  unfold push
  rw [h]

/-! ## What the calls read -/

/-- What a call reads from the input: nothing, if it gives a token again. -/
def fresh (t : Tokenizer) : Call → List (Except TokenizeError Token)
  | .next => if t.ahead.isEmpty then [t.scan.outcome] else []
  | .push => []

/-- What the calls read from the input, tokens and errors. -/
def reads : List Call → Tokenizer → List (Except TokenizeError Token)
  | [], _ => []
  | call :: calls, t => t.fresh call ++ reads calls (call.run t)

/-- The tokens that the calls read from the input. -/
def tokensRead (calls : List Call) (t : Tokenizer) : List Token :=
  (reads calls t).filterMap Except.toOption

theorem reads_append_singleton (calls : List Call) (call : Call) (t : Tokenizer) :
    reads (calls ++ [call]) t = reads calls t ++ (run calls t).fresh call := by
  induction calls generalizing t with
  | nil => exact List.append_nil _
  | cons first calls ih =>
    simp only [List.cons_append, reads, ih, List.append_assoc]
    rfl

theorem tokensRead_append_singleton (calls : List Call) (call : Call) (t : Tokenizer) :
    tokensRead (calls ++ [call]) t =
      tokensRead calls t ++ ((run calls t).fresh call).filterMap Except.toOption := by
  simp only [tokensRead, reads_append_singleton, List.filterMap_append]

theorem fresh_next_of_cons (h : t.ahead = token :: ahead) : t.fresh .next = [] := by
  simp [fresh, h]

theorem fresh_next_of_nil (h : t.ahead = []) : t.fresh .next = [t.scan.outcome] := by
  simp [fresh, h]

/-! ## What is kept -/

/-- The tokenizer keeps the last of the tokens read, as many as its history has room for. -/
structure Keeps (s : PatternSet) (config : Config) (t : Tokenizer) (read : List Token) : Prop where
  patterns_eq : t.patterns = s
  config_eq : t.config = config
  kept : t.ahead.reverse ++ t.past = read.reverse.take config.history

namespace Keeps

theorem length (h : Keeps s config t read) :
    t.ahead.length + t.past.length = min config.history read.length := by
  simpa using congrArg List.length h.kept

/-- The tokens to give again are the last of those read. -/
theorem exists_append (h : Keeps s config t read) : ∃ front, read = front ++ t.ahead := by
  obtain ⟨rest, hrest⟩ : t.ahead.reverse ++ t.past <+: read.reverse :=
    h.kept ▸ List.take_prefix _ _
  refine ⟨(t.past ++ rest).reverse, ?_⟩
  rw [← List.reverse_inj, ← hrest]
  simp

/-- A token read is kept, in place of the oldest if there is no room. -/
theorem keep (h : Keeps s config t read) (hahead : t.ahead = []) (scanner : Scanner)
    (token : Token) : Keeps s config ({ t with scanner }.keep token) (read ++ [token]) := by
  refine ⟨h.patterns_eq, h.config_eq, ?_⟩
  have hpast : t.past = read.reverse.take config.history := by
    simpa [hahead] using h.kept
  show t.ahead.reverse ++ (token :: t.past).take t.config.history = _
  rw [hahead, hpast, h.config_eq, List.reverse_append]
  cases config.history with
  | zero => rfl
  | succ n => simp [List.take_take]

/-- After a call, the last tokens read are kept again. -/
theorem run (h : Keeps s config t read) (call : Call) :
    Keeps s config (call.run t) (read ++ (t.fresh call).filterMap Except.toOption) := by
  cases call with
  | next =>
    show Keeps s config t.next.2 _
    cases hahead : t.ahead with
    | cons token ahead =>
      rw [next_of_cons hahead, fresh_next_of_cons hahead]
      refine ⟨h.patterns_eq, h.config_eq, ?_⟩
      simpa [hahead] using h.kept
    | nil =>
      rw [fresh_next_of_nil hahead]
      cases hscan : t.scan.outcome with
      | ok token =>
        rw [next_of_nil_of_ok hahead hscan]
        exact h.keep hahead _ token
      | error e =>
        rw [next_of_nil_of_error hahead hscan]
        show Keeps s config _ (read ++ [])
        rw [List.append_nil]
        exact ⟨h.patterns_eq, h.config_eq, h.kept⟩
  | push =>
    show Keeps s config _ (read ++ [])
    rw [List.append_nil]
    cases hpast : t.past with
    | nil =>
      rw [Call.run_push_of_error (push_of_nil hpast)]
      exact h
    | cons token past =>
      rw [Call.run_push_of_ok (push_of_cons hpast)]
      refine ⟨h.patterns_eq, h.config_eq, ?_⟩
      simpa [hpast] using h.kept

end Keeps

theorem keeps_start (s : PatternSet) (input : String) (config : Config) :
    Keeps s config (start s input config) [] :=
  ⟨rfl, rfl, List.take_nil.symm⟩

/-- Calls in any order keep the last of the tokens that they read. -/
theorem keeps_run (h : Keeps s config t []) (calls : List Call) :
    Keeps s config (run calls t) (tokensRead calls t) := by
  induction calls using List.reverseRecOn with
  | nil => exact h
  | append_singleton calls call ih =>
    rw [run_append_singleton, tokensRead_append_singleton]
    exact ih.run call

/-! ## The cursor -/

/-- The place of the first token that the history holds, among those read. -/
def oldest (calls : List Call) (t : Tokenizer) : Nat :=
  (tokensRead calls t).length - min (tokensRead calls t).length t.config.history

/-- The cursor is the place among the tokens read of the one that is given next. A call of `next` gives
the token at the cursor or, behind the last token, reads the input. A step back moves the cursor, down
to the oldest token that is kept. -/
structure IsCursor (t : Tokenizer) (cursor : List Call → Nat) : Prop where
  nil : cursor [] = 0
  oldest_le (calls : List Call) : oldest calls t ≤ cursor calls
  le_length (calls : List Call) : cursor calls ≤ (tokensRead calls t).length
  /-- A token read before is given again, and nothing is read. -/
  again (calls : List Call) (h : cursor calls < (tokensRead calls t).length) :
    (run calls t).next.1 = .ok (tokensRead calls t)[cursor calls] ∧
      (run calls t).next.2.scanner = (run calls t).scanner ∧
      reads (calls ++ [.next]) t = reads calls t ∧
      cursor (calls ++ [.next]) = cursor calls + 1
  /-- Behind the last token the input is read. -/
  fresh (calls : List Call) (h : cursor calls = (tokensRead calls t).length) :
    let scan := (run calls t).scanner.scan t.patterns.dfa t.config
    (run calls t).next.1 = scan.outcome ∧
      (run calls t).next.2.scanner = scan.scanner ∧
      reads (calls ++ [.next]) t = reads calls t ++ [scan.outcome]
  /-- The cursor passes a token just read. -/
  advance (calls : List Call) (h : cursor calls = (tokensRead calls t).length) (token : Token)
    (htoken : (run calls t).next.1 = .ok token) :
    tokensRead (calls ++ [.next]) t = tokensRead calls t ++ [token] ∧
      cursor (calls ++ [.next]) = cursor calls + 1
  /-- An error leaves the tokens and the cursor as they are. -/
  stay (calls : List Call) (h : cursor calls = (tokensRead calls t).length) (e : TokenizeError)
    (herror : (run calls t).next.1 = .error e) :
    tokensRead (calls ++ [.next]) t = tokensRead calls t ∧
      cursor (calls ++ [.next]) = cursor calls
  /-- A step back reads nothing. -/
  push (calls : List Call) (h : oldest calls t < cursor calls) :
    ∃ back, (run calls t).push = .ok back ∧ back.scanner = (run calls t).scanner ∧
      reads (calls ++ [.push]) t = reads calls t ∧
      cursor (calls ++ [.push]) + 1 = cursor calls
  /-- A step back that fails changes nothing. -/
  limit (calls : List Call) (h : cursor calls = oldest calls t) :
    (run calls t).push = .error (.tooManyPushbacks t.config.history) ∧
      run (calls ++ [.push]) t = run calls t ∧
      reads (calls ++ [.push]) t = reads calls t ∧
      cursor (calls ++ [.push]) = cursor calls

namespace Keeps

theorem ahead_eq_nil (h : Keeps s config t read) (hcursor : read.length - t.ahead.length = read.length) :
    t.ahead = [] := by
  have hlength := h.length
  rw [← List.length_eq_zero_iff]
  omega

theorem ahead_ne_nil (h : read.length - t.ahead.length < read.length) : t.ahead ≠ [] := by
  intro hnil
  simp [hnil] at h

/-- Tokens to give again begin with the one at the cursor. -/
theorem getElem? (h : Keeps s config t read) : read[read.length - t.ahead.length]? = t.ahead.head? := by
  obtain ⟨front, rfl⟩ := h.exists_append
  rw [List.length_append, Nat.add_sub_cancel, List.getElem?_append_right (Nat.le_refl _),
    Nat.sub_self, List.head?_eq_getElem?]

theorem past_eq_nil (h : Keeps s config t read)
    (hcursor : read.length - t.ahead.length = read.length - min read.length config.history) :
    t.past = [] := by
  have hlength := h.length
  rw [← List.length_eq_zero_iff]
  omega

theorem past_ne_nil (h : Keeps s config t read)
    (hcursor : read.length - min read.length config.history < read.length - t.ahead.length) :
    t.past ≠ [] := by
  intro hnil
  have hlength := h.length
  rw [hnil, List.length_nil] at hlength
  omega

end Keeps

/-! ## Where the cursor is -/

/-- The tokens to give again are those from the cursor on. -/
def cursor (t : Tokenizer) (calls : List Call) : Nat :=
  (tokensRead calls t).length - (run calls t).ahead.length

variable {calls : List Call} {past : List Token}

theorem reads_next_of_cons (hahead : (run calls t).ahead = token :: ahead) :
    reads (calls ++ [.next]) t = reads calls t := by
  rw [reads_append_singleton, fresh_next_of_cons hahead, List.append_nil]

theorem reads_next_of_nil (hahead : (run calls t).ahead = []) :
    reads (calls ++ [.next]) t = reads calls t ++ [(run calls t).next.1] := by
  rw [reads_append_singleton, fresh_next_of_nil hahead, (next_of_ahead_eq_nil hahead).1]

theorem reads_push (calls : List Call) (t : Tokenizer) : reads (calls ++ [.push]) t = reads calls t := by
  rw [reads_append_singleton, fresh, List.append_nil]

theorem cursor_next_of_cons (h : Keeps s config (run calls t) (tokensRead calls t))
    (hahead : (run calls t).ahead = token :: ahead) :
    t.cursor (calls ++ [.next]) = t.cursor calls + 1 := by
  have hlength := h.length
  unfold cursor tokensRead
  rw [reads_next_of_cons hahead, run_append_singleton, hahead]
  show _ - (run calls t).next.2.ahead.length = _
  rw [next_of_cons hahead, ← tokensRead]
  rw [hahead, List.length_cons] at hlength
  dsimp only [List.length_cons]
  omega

theorem cursor_next_of_nil (hahead : (run calls t).ahead = []) :
    t.cursor (calls ++ [.next]) = (tokensRead (calls ++ [.next]) t).length := by
  unfold cursor
  rw [run_append_singleton]
  show _ - (run calls t).next.2.ahead.length = _
  rw [(next_of_ahead_eq_nil hahead).2.1]
  rfl

theorem cursor_push_of_cons (h : Keeps s config (run calls t) (tokensRead calls t))
    (hpast : (run calls t).past = token :: past) :
    t.cursor (calls ++ [.push]) + 1 = t.cursor calls := by
  have hlength := h.length
  unfold cursor tokensRead
  rw [reads_push, run_append_singleton, Call.run_push_of_ok (push_of_cons hpast), ← tokensRead]
  rw [hpast, List.length_cons] at hlength
  dsimp only [List.length_cons]
  omega

/-- A tokenizer that keeps nothing yet has a cursor. -/
theorem isCursor (hstart : Keeps t.patterns t.config t []) : t.IsCursor t.cursor where
  nil := by
    rw [cursor, tokensRead, reads]
    exact Nat.zero_sub _
  oldest_le calls := by
    have hlength := (keeps_run hstart calls).length
    unfold oldest cursor
    omega
  le_length calls := Nat.sub_le _ _
  again calls hlt := by
    obtain ⟨token, ahead, hahead⟩ := List.exists_cons_of_ne_nil (Keeps.ahead_ne_nil hlt)
    refine ⟨?_, ?_, reads_next_of_cons hahead, cursor_next_of_cons (keeps_run hstart calls) hahead⟩
    · have hget : (tokensRead calls t)[t.cursor calls]? = _ := (keeps_run hstart calls).getElem?
      rw [List.getElem?_eq_getElem hlt, hahead, List.head?_cons] at hget
      rw [next_of_cons hahead]
      exact congrArg Except.ok (Option.some.inj hget).symm
    · rw [next_of_cons hahead]
  fresh calls heq := by
    have hahead := (keeps_run hstart calls).ahead_eq_nil heq
    have hscan : (run calls t).scan = (run calls t).scanner.scan t.patterns.dfa t.config := by
      rw [scan, (keeps_run hstart calls).patterns_eq, (keeps_run hstart calls).config_eq]
    obtain ⟨houtcome, -, hscanner⟩ := next_of_ahead_eq_nil hahead
    rw [hscan] at houtcome hscanner
    exact ⟨houtcome, hscanner, houtcome ▸ reads_next_of_nil hahead⟩
  advance calls heq token htoken := by
    have hahead := (keeps_run hstart calls).ahead_eq_nil heq
    have hread : tokensRead (calls ++ [.next]) t = tokensRead calls t ++ [token] := by
      rw [tokensRead, reads_next_of_nil hahead, htoken, List.filterMap_append]
      rfl
    exact ⟨hread, by rw [cursor_next_of_nil hahead, hread, heq, List.length_append]; rfl⟩
  stay calls heq e herror := by
    have hahead := (keeps_run hstart calls).ahead_eq_nil heq
    have hread : tokensRead (calls ++ [.next]) t = tokensRead calls t := by
      rw [tokensRead, reads_next_of_nil hahead, herror, List.filterMap_append]
      exact List.append_nil _
    exact ⟨hread, by rw [cursor_next_of_nil hahead, hread, heq]⟩
  push calls hlt := by
    obtain ⟨token, past, hpast⟩ := List.exists_cons_of_ne_nil ((keeps_run hstart calls).past_ne_nil hlt)
    exact ⟨_, push_of_cons hpast, rfl, reads_push calls t,
      cursor_push_of_cons (keeps_run hstart calls) hpast⟩
  limit calls heq := by
    have hpush := push_of_nil ((keeps_run hstart calls).past_eq_nil heq)
    have hrun : run (calls ++ [.push]) t = run calls t := by
      rw [run_append_singleton, Call.run_push_of_error hpush]
    refine ⟨(keeps_run hstart calls).config_eq ▸ hpush, hrun, reads_push calls t, ?_⟩
    rw [cursor, tokensRead, hrun, reads_push, ← tokensRead, ← cursor]

/-! ## Reading without steps back -/

theorem scanner_run_push (t : Tokenizer) : (Call.push.run t).scanner = t.scanner := by
  cases hpast : t.past with
  | nil => rw [Call.run_push_of_error (push_of_nil hpast)]
  | cons token past => rw [Call.run_push_of_ok (push_of_cons hpast)]

/-- Calls without a step back give nothing again, and keep the patterns and the configuration. -/
theorem after_keeps (hahead : t.ahead = []) (n : Nat) :
    (after n t).ahead = [] ∧ (after n t).patterns = t.patterns ∧ (after n t).config = t.config := by
  induction n with
  | zero => exact ⟨hahead, rfl, rfl⟩
  | succ n ih =>
    rw [after_succ]
    obtain ⟨hpatterns, hconfig⟩ := (after n t).next_keeps
    exact ⟨(next_of_ahead_eq_nil ih.1).2.1, hpatterns.trans ih.2.1, hconfig.trans ih.2.2⟩

/-- What the calls read is what the first calls without a step back give. -/
theorem exists_reads_eq (h : Keeps t.patterns t.config t []) (hahead : t.ahead = [])
    (calls : List Call) :
    ∃ n, reads calls t = (List.range n).map (fun k => (after k t).next.1) ∧
      (run calls t).scanner = (after n t).scanner := by
  induction calls using List.reverseRecOn with
  | nil => exact ⟨0, rfl, rfl⟩
  | append_singleton calls call ih =>
    obtain ⟨n, hreads, hscanner⟩ := ih
    cases call with
    | push =>
      refine ⟨n, (reads_push calls t).trans hreads, ?_⟩
      rw [run_append_singleton, scanner_run_push, hscanner]
    | next =>
      cases hgiven : (run calls t).ahead with
      | cons token ahead =>
        refine ⟨n, (reads_next_of_cons hgiven).trans hreads, ?_⟩
        rw [run_append_singleton, ← hscanner]
        show (run calls t).next.2.scanner = _
        rw [next_of_cons hgiven]
      | nil =>
        -- Both read at the same place.
        obtain ⟨hafter, hpatterns, hconfig⟩ := after_keeps hahead n
        have hkeeps := keeps_run h calls
        have hscan : (run calls t).scan = (after n t).scan := by
          rw [scan, scan, hkeeps.patterns_eq, hkeeps.config_eq, hpatterns, hconfig, hscanner]
        obtain ⟨houtcome, -, hnext⟩ := next_of_ahead_eq_nil hgiven
        obtain ⟨houtcome', -, hnext'⟩ := next_of_ahead_eq_nil hafter
        refine ⟨n + 1, ?_, ?_⟩
        · rw [reads_next_of_nil hgiven, hreads, List.range_succ, List.map_append, houtcome, hscan,
            ← houtcome']
          rfl
        · rw [run_append_singleton, after_succ]
          exact hnext.trans (hscan ▸ hnext'.symm)

end Tokenizer

/-! ## Tokens in one buffer -/

/-- A tokenizer with one buffer for the tokens given last. -/
structure BufferedTokenizer where
  patterns : PatternSet
  config : Config
  scanner : Scanner
  /-- The tokens given last, oldest first. -/
  history : List Token := []
  /-- How many of these were stepped back over. -/
  pushedBack : Nat := 0

namespace BufferedTokenizer

/-- A tokenizer at the start of the input. -/
def start (patterns : PatternSet) (input : String) (config : Config) : BufferedTokenizer :=
  { patterns, config, scanner := { rest := input.toList } }

/-- Keeps a token that was just read, in place of the oldest if the history is full. -/
def keep (b : BufferedTokenizer) (token : Token) : BufferedTokenizer :=
  if 0 < b.config.history then
    let kept := if b.history.length = b.config.history then b.history.drop 1 else b.history
    { b with history := kept ++ [token] }
  else b

/-- Reads the next token from the input. -/
def read (b : BufferedTokenizer) : Except TokenizeError Token × BufferedTokenizer :=
  let scan := b.scanner.scan b.patterns.dfa b.config
  let read := { b with scanner := scan.scanner }
  match scan.outcome with
  | .ok token => (.ok token, read.keep token)
  | .error e => (.error e, read)

/-- The next token: one stepped back over, or else one read from the input. -/
def next (b : BufferedTokenizer) : Except TokenizeError Token × BufferedTokenizer :=
  if 0 < b.pushedBack then
    let later := { b with pushedBack := b.pushedBack - 1 }
    match b.history[b.history.length - b.pushedBack]? with
    | some token => (.ok token, later)
    | none => later.read
  else b.read

/-- Steps back one token, as far as the history reaches. -/
def push (b : BufferedTokenizer) : Except TokenizeError BufferedTokenizer :=
  if b.history.length ≤ b.pushedBack then .error (.tooManyPushbacks b.config.history)
  else .ok { b with pushedBack := b.pushedBack + 1 }

instance : TokenStream BufferedTokenizer where
  next := next
  push := push
  remaining b := b.pushedBack + b.scanner.rest.length

end BufferedTokenizer

namespace Tokenizer

variable {s : PatternSet} {config : Config} {t : Tokenizer} {read : List Token}

/-- The tokenizer with its tokens in one buffer. -/
def buffered (t : Tokenizer) : BufferedTokenizer :=
  { patterns := t.patterns
    config := t.config
    scanner := t.scanner
    history := t.past.reverse ++ t.ahead
    pushedBack := t.ahead.length }

/-- In a buffer with room for some tokens, the oldest one goes for a new one if the buffer is full. -/
theorem reverse_take_cons {n : Nat} {past : List Token} (h : past.length ≤ n + 1) (token : Token) :
    ((token :: past).take (n + 1)).reverse =
      (if past.reverse.length = n + 1 then past.reverse.drop 1 else past.reverse) ++ [token] := by
  rw [List.length_reverse, List.take_succ_cons, List.reverse_cons]
  split
  · next hfull => rw [List.drop_reverse, hfull, Nat.add_sub_cancel]
  · next hfull => rw [List.take_of_length_le (by omega)]

theorem buffered_keep (h : Keeps s config t read) (hahead : t.ahead = []) (token : Token) :
    t.buffered.keep token = (t.keep token).buffered := by
  have hlength := h.length
  rw [hahead, List.length_nil, Nat.zero_add, ← h.config_eq] at hlength
  unfold BufferedTokenizer.keep keep buffered
  rw [hahead]
  dsimp only
  cases hroom : t.config.history with
  | zero =>
    rw [hroom, Nat.zero_min] at hlength
    rw [if_neg (Nat.lt_irrefl 0), List.length_eq_zero_iff.1 hlength]
    rfl
  | succ n =>
    rw [if_pos (Nat.succ_pos n), List.append_nil, List.append_nil]
    rw [reverse_take_cons (hroom ▸ hlength ▸ Nat.min_le_left _ _)]

theorem buffered_read (h : Keeps s config t read) (hahead : t.ahead = []) :
    t.buffered.read = (t.next.1, t.next.2.buffered) := by
  have hread : t.buffered.scanner.scan t.buffered.patterns.dfa t.buffered.config = t.scan := rfl
  rw [BufferedTokenizer.read, hread]
  cases hscan : t.scan.outcome with
  | ok token =>
    rw [next_of_nil_of_ok hahead hscan]
    have hkeep : Keeps s config { t with scanner := t.scan.scanner } read :=
      ⟨h.patterns_eq, h.config_eq, h.kept⟩
    exact congrArg (Prod.mk _) (buffered_keep hkeep hahead token)
  | error e =>
    rw [next_of_nil_of_error hahead hscan]
    rfl

/-- Where a token is to be given again, the buffer holds it. -/
theorem buffered_getElem? (t : Tokenizer) :
    t.buffered.history[t.buffered.history.length - t.buffered.pushedBack]? = t.ahead.head? := by
  have hindex : t.past.reverse.length + t.ahead.length - t.ahead.length = t.past.reverse.length :=
    Nat.add_sub_cancel ..
  show (t.past.reverse ++ t.ahead)[(t.past.reverse ++ t.ahead).length - t.ahead.length]? = _
  rw [List.length_append, hindex, List.getElem?_append_right (Nat.le_refl _), Nat.sub_self,
    List.head?_eq_getElem?]

theorem buffered_next (h : Keeps s config t read) :
    t.buffered.next = (t.next.1, t.next.2.buffered) := by
  cases hahead : t.ahead with
  | cons token ahead =>
    have hpushed : t.buffered.pushedBack = ahead.length + 1 := by simp [buffered, hahead]
    rw [BufferedTokenizer.next, if_pos (hpushed ▸ Nat.succ_pos _), buffered_getElem?, hahead,
      next_of_cons hahead, hpushed]
    simp [buffered, hahead]
  | nil =>
    have hpushed : t.buffered.pushedBack = 0 := by simp [buffered, hahead]
    rw [BufferedTokenizer.next, if_neg (hpushed ▸ Nat.lt_irrefl 0), buffered_read h hahead]

theorem buffered_push (t : Tokenizer) : t.buffered.push = t.push.map buffered := by
  cases hpast : t.past with
  | nil =>
    rw [push_of_nil hpast, BufferedTokenizer.push, if_pos]
    · rfl
    · simp [buffered, hpast]
  | cons token past =>
    rw [push_of_cons hpast, BufferedTokenizer.push, if_neg]
    · simp [buffered, hpast, Except.map]
    · simp [buffered, hpast]
      omega

theorem buffered_run (h : Keeps t.patterns t.config t []) (calls : List Call) :
    run calls t.buffered = (run calls t).buffered := by
  induction calls using List.reverseRecOn with
  | nil => rfl
  | append_singleton calls call ih =>
    rw [run_append_singleton, run_append_singleton, ih]
    cases call with
    | next => exact congrArg Prod.snd (buffered_next (keeps_run h calls))
    | push =>
      have hpush := buffered_push (run calls t)
      cases hpast : (run calls t).past with
      | nil =>
        rw [push_of_nil hpast] at hpush
        rw [Call.run_push_of_error hpush, Call.run_push_of_error (push_of_nil hpast)]
      | cons token past =>
        rw [push_of_cons hpast] at hpush
        rw [Call.run_push_of_ok hpush, Call.run_push_of_ok (push_of_cons hpast)]

/-- Every tokenizer, for all patterns, input and configuration, works like a cursor over the tokens read
from its input, and reads what it does without a step back. One that keeps its tokens in a single
buffer gives the same answers after any calls: it never counts more tokens to give again than it
holds, and where there are some, it finds the one at the cursor. -/
theorem start_cursor (s : PatternSet) (input : String) (config : Config) :
    let t := start s input config
    ∃ cursor, t.IsCursor cursor ∧ ∀ calls,
      (∃ n, reads calls t = (List.range n).map fun k => (after k t).next.1) ∧
      let z := run calls t
      let b := run calls (BufferedTokenizer.start s input config)
      b.next.1 = z.next.1 ∧ b.push.map (fun _ => ()) = z.push.map (fun _ => ()) ∧
      b.pushedBack ≤ b.history.length ∧
      (0 < b.pushedBack → ∃ _ : cursor calls < (tokensRead calls t).length,
        b.history[b.history.length - b.pushedBack]? = some (tokensRead calls t)[cursor calls]) := by
  intro t
  have h : Keeps t.patterns t.config t [] := keeps_start s input config
  refine ⟨t.cursor, isCursor h, fun calls => ⟨?_, ?_⟩⟩
  · obtain ⟨n, hreads, -⟩ := exists_reads_eq h rfl calls
    exact ⟨n, hreads⟩
  have hb : run calls (BufferedTokenizer.start s input config) = (run calls t).buffered :=
    buffered_run h calls
  dsimp only
  rw [hb]
  refine ⟨congrArg Prod.fst (buffered_next (keeps_run h calls)), ?_, ?_, fun hpushed => ?_⟩
  · rw [buffered_push]
    cases (run calls t).push <;> rfl
  · simp [buffered]
  · obtain ⟨token, ahead, hahead⟩ := List.exists_cons_of_length_pos hpushed
    have hget : (tokensRead calls t)[t.cursor calls]? = some token := by
      have hget := (keeps_run h calls).getElem?
      rwa [hahead, List.head?_cons, ← hahead] at hget
    obtain ⟨hlt, htoken⟩ := List.getElem?_eq_some_iff.1 hget
    refine ⟨hlt, ?_⟩
    rw [buffered_getElem?, hahead, htoken]
    rfl

end Tokenizer

end Predictive
