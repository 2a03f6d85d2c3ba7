import Predictive.Pattern.Basic
import Predictive.Text.Quoted

/-!
# Tokens

A token is a named piece of input with the line on which it starts. A `TokenStream` gives tokens one
at a time and can step back.
-/

namespace Predictive

/-- A named piece of input. -/
structure Token where
  name : String
  lexeme : String
  /-- The line on which the token starts, counted from 1. -/
  line : Nat
deriving DecidableEq

/-- The end-of-input token of the given name: a token without characters. -/
def Token.atEnd (name : String) (line : Nat) : Token := { name, lexeme := "", line }

/-- The name with the quoted lexeme. -/
def Token.text (t : Token) : String := s!"{t.name}({Text.quoted t.lexeme})"

/-- The names with a meaning for tokenizer and grammar, and the depth of the tokenizer's history. -/
structure Config where
  /-- How many tokens are kept for stepping back. -/
  history : Nat := 20
  /-- Tokens of this name are discarded. -/
  skip : String := "skip"
  /-- The name of the token at the end of the input. -/
  eof : String := eofName
deriving DecidableEq

/-- Why no token could be given. -/
inductive TokenizeError
  /-- No pattern matches the text read. -/
  | noSuchToken (text : String) (line : Nat)
  /-- A character that no input may hold. -/
  | invalidCharacter (c : Char) (line : Nat)
  /-- There is no token to step back to. -/
  | tooManyPushbacks (depth : Nat)
  /-- A pattern that gives tokens has the name of the end of the input. -/
  | reservedName (name : String)
deriving DecidableEq

namespace TokenizeError

/-- The line of the error, if it has one. -/
def line? : TokenizeError → Option Nat
  | noSuchToken _ line | invalidCharacter _ line => some line
  | tooManyPushbacks _ | reservedName _ => none

/-- The text of an error. -/
def message : TokenizeError → String
  | noSuchToken text line => s!"({line}) no such token for \"{text}\""
  | invalidCharacter c line => s!"({line}) invalid character {Text.quotedChar c}"
  | tooManyPushbacks depth => s!"too many token pushbacks (history holds {depth} tokens)"
  | reservedName name => s!"pattern \"{name}\" would produce the end-of-file token"

end TokenizeError

/-- Where a parser takes its tokens from. -/
class TokenStream (σ : Type) where
  /-- The next token, or why there is none; a stream stays in use after an error. -/
  next : σ → Except TokenizeError Token × σ
  /-- Steps back, so that the token given last is given again. -/
  push : σ → Except TokenizeError σ
  /-- A number of calls of `next` after which the stream gives nothing but its end-of-input token or
  an error. -/
  remaining : σ → Nat

end Predictive
