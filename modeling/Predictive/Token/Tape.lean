import Predictive.Token.Basic

/-!
# Token tapes

A stream of tokens that are already known: a list and a position in it. After the last token it
gives end-of-input tokens on the line of that token.
-/

namespace Predictive

/-- Known tokens, and a position among them. -/
structure TokenTape where
  tokens : List Token
  /-- How many tokens were given, end-of-input tokens included. -/
  position : Nat := 0
  /-- The name of the end-of-input token. -/
  eof : String := eofName
deriving DecidableEq

namespace TokenTape

/-- The tape of `tokens` that ends as `config` says. -/
def ofTokens (tokens : List Token) (config : Config) : TokenTape := { tokens, eof := config.eof }

/-- The token after the last. -/
def endToken (tape : TokenTape) : Token :=
  .atEnd tape.eof ((tape.tokens.getLast?.map (·.line)).getD 1)

/-- The next token. -/
def next (tape : TokenTape) : Token × TokenTape :=
  (tape.tokens[tape.position]?.getD tape.endToken, { tape with position := tape.position + 1 })

/-- Steps back one token. -/
def push (tape : TokenTape) : Except TokenizeError TokenTape :=
  if tape.position = 0 then .error (.tooManyPushbacks tape.tokens.length)
  else .ok { tape with position := tape.position - 1 }

instance : TokenStream TokenTape where
  next tape := (.ok tape.next.1, tape.next.2)
  push := push
  remaining tape := tape.tokens.length - tape.position

end TokenTape

end Predictive
