import Predictive.Automaton.Label
import Predictive.SortedSet
import Predictive.Pattern.Error

/-!
# Tokens of a regular expression

A regular expression is read one character at a time into tokens. `[` gives a token of its own, and
the members of the class another when its `]` is read. The first fault ends the reading; the tokens
before it are kept, since one of them may be at fault too.
-/

namespace Predictive.Regex

/-- A token of a regular expression. -/
inductive Token
  /-- A character, or `.` for any. -/
  | label (l : Label)
  /-- `[` -/
  | openClass
  /-- The members of a class, up to its `]`. -/
  | members (labels : List Label)
  /-- `(` -/
  | openGroup
  /-- `)` -/
  | closeGroup
  /-- `*` -/
  | star
  /-- `+` -/
  | plus
  /-- `?` -/
  | question
  /-- `|` -/
  | bar
  /-- `:name:` -/
  | embed (name : String)
deriving DecidableEq

namespace Token

/-- The token completes an operand. -/
def completesOperand : Token → Bool
  | label _ | members _ | closeGroup | star | plus | question | embed _ => true
  | openClass | openGroup | bar => false

/-- The token begins an operand. -/
def beginsOperand : Token → Bool
  | label _ | openClass | openGroup | embed _ => true
  | members _ | closeGroup | star | plus | question | bar => false

end Token

/-! ## Characters with a meaning -/

/-- The characters that are written with a `\` where they stand for themselves. -/
def operators : List Char := ['?', '*', ':', '(', ')', '+', '^', '|', '[', ']', '#']

/-- The character that `\` and `c` stand for. -/
def unescape (c : Char) : Except PatternError Char :=
  if c = 's' then .ok ' '
  else if c = 'n' then .ok '\n'
  else if c = 'r' then .ok '\r'
  else if c = 't' then .ok '\t'
  else if c = '.' ∨ c = '\\' ∨ c ∈ operators then .ok c
  else .error (.invalidEscape c)

/-! ## Character classes -/

/-- The codes of the characters that a negated class can match. -/
def negationCodes : List Nat := (List.range 118).map (· + 9)

/-- The labels of a class: its members, or with `negated` the characters of `negationCodes` that are
not among them. A class without labels is a fault. -/
def classLabels (negated : Bool) (members : SortedSet Label) : Except PatternError (List Label) :=
  let labels :=
    if negated ∧ .any ∈ members then []
    else if negated then
      (negationCodes.map fun code => .char (Char.ofNat code)).filter (· ∉ members)
    else members.toList
  if members.isEmpty ∨ labels.isEmpty then .error .emptyClass else .ok labels

/-! ## Reading -/

/-- Where in a regular expression the reader stands. -/
inductive Reader
  /-- Between tokens. -/
  | outside
  /-- After a `\`. -/
  | escape
  /-- In the name of an embedded pattern, of which `name` is read, newest first. -/
  | embed (name : List Char)
  /-- After a `[`. -/
  | openClass
  /-- In a class. -/
  | inClass (negated : Bool) (members : SortedSet Label)
  /-- After a `\` in a class. -/
  | escapeInClass (negated : Bool) (members : SortedSet Label)
deriving DecidableEq

namespace Reader

/-- Reads a character between tokens. -/
def readOutside (c : Char) : Except PatternError (Option Token × Reader) :=
  if c = '*' then .ok (some .star, outside)
  else if c = '+' then .ok (some .plus, outside)
  else if c = '?' then .ok (some .question, outside)
  else if c = '|' then .ok (some .bar, outside)
  else if c = '(' then .ok (some .openGroup, outside)
  else if c = ')' then .ok (some .closeGroup, outside)
  else if c = '[' then .ok (some .openClass, openClass)
  else if c = ']' then .error .unopenedClass
  else if c = '^' then .error (.outsideClass c)
  else if c = ':' then .ok (none, embed [])
  else if c = '.' then .ok (some (.label .any), outside)
  else if c = '\\' then .ok (none, escape)
  else .ok (some (.label (.char c)), outside)

/-- Reads a character in a class. -/
def readInClass (negated : Bool) (members : SortedSet Label) (c : Char) :
    Except PatternError (Option Token × Reader) :=
  if c = ']' then (classLabels negated members).map fun labels => (some (.members labels), outside)
  else if c = '^' then .error .misplacedNegation
  else if c = '.' then .ok (none, inClass negated (members.insert .any))
  else if c = '\\' then .ok (none, escapeInClass negated members)
  else if c ∈ operators ∧ c ≠ '#' then .error (.unescapedInClass c)
  else .ok (none, inClass negated (members.insert (.char c)))

/-- Reads a character: gives the token that it completes, if any, and where the reader then stands.
-/
def read (r : Reader) (c : Char) : Except PatternError (Option Token × Reader) :=
  match r with
  | outside => readOutside c
  | escape => (unescape c).map fun c => (some (.label (.char c)), outside)
  | embed name =>
    if c = ':' then .ok (some (.embed (String.ofList name.reverse)), outside)
    else .ok (none, embed (c :: name))
  | openClass => if c = '^' then .ok (none, inClass true ∅) else readInClass false ∅ c
  | inClass negated members => readInClass negated members c
  | escapeInClass negated members =>
    (unescape c).map fun c => (none, inClass negated (members.insert (.char c)))

/-- The fault, if the text ends here. -/
def atEnd : Reader → Option PatternError
  | outside => none
  | escape | escapeInClass _ _ => some .danglingEscape
  | embed _ => some .unterminatedEmbed
  | openClass | inClass _ _ => some .unterminatedClass

/-- The tokens of a text, and the fault at which the reading ended, if there is one. -/
def tokens (r : Reader) : List Char → List Token × Option PatternError
  | [] => ([], r.atEnd)
  | c :: cs =>
    match r.read c with
    | .error e => ([], some e)
    | .ok (token?, next) =>
      let (rest, fault) := next.tokens cs
      (token?.toList ++ rest, fault)

end Reader

end Predictive.Regex
