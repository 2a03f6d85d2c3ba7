import Predictive.Pattern.Definitions

/-!
# The tokens of grammar texts

The definitions of the tokens that a grammar text is made of, and the pattern set they compile to.
Line breaks are tokens of their own, except after a `\`.
-/

namespace Predictive.Grammar.Vocabulary

/-- The token definitions. -/
def definitions : String := "
:alpha: [abcdefghijklmnopqrstuvwxyzABCDEFGHIJKLMNOPQRSTUVWXYZ_]
:digit: [0123456789]
:newline: (\\n | \\r | \\r\\n)

id: :alpha: (:alpha: | :digit:)*
sep: ->
op: [\\* \\? \\|]
lparen: \\(
rparen: \\)
multi_child: \\[>1\\]
eol: :newline:

skip: [\\s \\t]+
skip: \\# [^\\n \\r]*
skip: \\\\ :newline:
"

/-- The patterns of the definitions. -/
def patterns : Except DefinitionError PatternSet := PatternSet.parse definitions

/-- The kinds of tokens with a meaning in a grammar text. -/
inductive Kind
  /-- The name of a rule or terminal. -/
  | id
  /-- `->` -/
  | sep
  /-- `*`, `?` or `|` -/
  | op
  /-- `(` -/
  | lparen
  /-- `)` -/
  | rparen
  /-- `[>1]` -/
  | multiChild
  /-- A line break. -/
  | eol
deriving DecidableEq

/-- The kind of the tokens of that name. -/
def Kind.ofName? (name : String) : Option Kind :=
  if name = "id" then some .id
  else if name = "sep" then some .sep
  else if name = "op" then some .op
  else if name = "lparen" then some .lparen
  else if name = "rparen" then some .rparen
  else if name = "multi_child" then some .multiChild
  else if name = "eol" then some .eol
  else none

end Predictive.Grammar.Vocabulary
