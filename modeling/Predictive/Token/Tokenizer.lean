import Predictive.Pattern.Set
import Predictive.Token.Scanner

/-!
# Tokenizers

A scanner over the master automaton of a pattern set, with a history of the tokens given last.
Stepping back moves tokens from the history to those that are given again before the input is read
on.
-/

namespace Predictive

/-- A scanner with a history. -/
structure Tokenizer where
  patterns : PatternSet
  config : Config
  scanner : Scanner
  /-- The tokens given last and not stepped back over, newest first. -/
  past : List Token := []
  /-- The tokens stepped back over, in the order in which they are given again. -/
  ahead : List Token := []

namespace Tokenizer

/-- A tokenizer at the start of `input`. -/
def start (patterns : PatternSet) (input : String) (config : Config) : Tokenizer :=
  { patterns, config, scanner := { rest := input.toList } }

/-- What the scanner gives next. -/
def scan (t : Tokenizer) : Scan := t.scanner.scan t.patterns.dfa t.config

/-- Keeps a token that was just read; the history has room for as many as the configuration says. -/
def keep (t : Tokenizer) (token : Token) : Tokenizer :=
  { t with past := (token :: t.past).take t.config.history }

/-- The next token: one stepped back over, or else one read from the input. -/
def next (t : Tokenizer) : Except TokenizeError Token × Tokenizer :=
  match t.ahead with
  | token :: ahead => (.ok token, { t with past := token :: t.past, ahead })
  | [] =>
    let scan := t.scan
    let read := { t with scanner := scan.scanner }
    match scan.outcome with
    | .ok token => (.ok token, read.keep token)
    | .error e => (.error e, read)

/-- Steps back one token, as far as the history reaches. -/
def push (t : Tokenizer) : Except TokenizeError Tokenizer :=
  match t.past with
  | token :: past => .ok { t with past, ahead := token :: t.ahead }
  | [] => .error (.tooManyPushbacks t.config.history)

/-- A number of calls of `next` after which the input is at its end. -/
def remaining (t : Tokenizer) : Nat := t.ahead.length + t.scanner.rest.length

theorem remaining_next {t next : Tokenizer} {token : Token} (h : t.next = (.ok token, next))
    (hn : token.name ≠ t.config.eof) : next.remaining < t.remaining := by
  rw [Tokenizer.next] at h
  split at h
  · next _ ahead hahead =>
    cases h
    simp [remaining, hahead]
  · next hahead =>
    dsimp only at h
    split at h
    · next hscan =>
      cases h
      have hlt := (Scanner.length_rest_of_scan hscan).resolve_left hn
      show t.ahead.length + t.scan.scanner.rest.length < t.ahead.length + t.scanner.rest.length
      exact Nat.add_lt_add_left hlt _
    · cases h

instance : TokenStream Tokenizer where
  next := next
  push := push
  remaining := remaining

/-- The tokens of the rest of an input. -/
structure Collection where
  /-- The tokens before the end. -/
  tokens : List Token
  /-- The end-of-input token, or the error that ended the reading. -/
  ending : Except TokenizeError Token
  /-- The tokenizer after the end. -/
  tokenizer : Tokenizer

/-- Gives the tokens of the rest of the input, up to its end or an error. -/
def collect (t : Tokenizer) : Collection :=
  match _h : t.next with
  | (.error e, next) => { tokens := [], ending := .error e, tokenizer := next }
  | (.ok token, next) =>
    if _hn : token.name = t.config.eof then { tokens := [], ending := .ok token, tokenizer := next }
    else
      let rest := next.collect
      { rest with tokens := token :: rest.tokens }
termination_by t.remaining
decreasing_by exact remaining_next (by assumption) (by assumption)

/-- Gives all tokens of the rest of the input, without the one at its end. -/
def tokenize (t : Tokenizer) : Except TokenizeError (List Token) × Tokenizer :=
  let all := t.collect
  (all.ending.map fun _ => all.tokens, all.tokenizer)

/-- A tokenizer with the default configuration, whose end-of-input name no pattern can have. -/
def ofText (s : PatternSet) (input : String) : Tokenizer := .start s input {}

/-- A tokenizer. No pattern that gives tokens may have the name of the end of the input. -/
def configured (s : PatternSet) (input : String) (config : Config) :
    Except TokenizeError Tokenizer :=
  match s.pattern? config.eof with
  | some p =>
    if p.definition.internal then .ok (.start s input config) else .error (.reservedName config.eof)
  | none => .ok (.start s input config)

end Tokenizer

end Predictive
