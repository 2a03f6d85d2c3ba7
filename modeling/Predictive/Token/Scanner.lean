import Predictive.Token.Basic

/-!
# Scanning

A scanner cuts the input into pieces. A piece is what the automaton reads before it stops for want
of an edge; it must end in a state that accepts, and is named by the pattern that wins there. Pieces
named as the ones to skip are discarded.
-/

namespace Predictive

/-- The characters an input may hold: tab, line breaks and what ASCII can print. -/
def isAccepted (c : Char) : Bool :=
  (9 ≤ c.toNat && c.toNat ≤ 13) || (32 ≤ c.toNat && c.toNat ≤ 126)

/-- The number of line breaks completed in `read` when `rest` follows. A line feed is a line break,
and so is a carriage return that no line feed follows. -/
def lineBreaks (read rest : List Char) : Nat :=
  match read with
  | [] => 0
  | c :: cs =>
    let next := cs.head?.or rest.head?
    (if c = '\n' ∨ (c = '\r' ∧ next ≠ some '\n') then 1 else 0) + lineBreaks cs rest

/-- What the automaton reads in one go. -/
structure Munch where
  /-- The characters read. -/
  lexeme : List Char
  /-- The state reached. -/
  state : Nat
  /-- The input that follows. -/
  rest : List Char

/-- Reads from state `id` as long as characters are accepted and have an edge. -/
def Dfa.munch (d : Dfa) (id : Nat) : List Char → Munch
  | [] => { lexeme := [], state := id, rest := [] }
  | c :: cs =>
    if isAccepted c then
      match d.step id c with
      | some next =>
        let m := d.munch next cs
        { m with lexeme := c :: m.lexeme }
      | none => { lexeme := [], state := id, rest := c :: cs }
    else { lexeme := [], state := id, rest := c :: cs }

theorem Dfa.munch_append (d : Dfa) (id : Nat) (cs : List Char) :
    (d.munch id cs).lexeme ++ (d.munch id cs).rest = cs := by
  induction cs generalizing id with
  | nil => rfl
  | cons c cs ih =>
    rw [munch]
    split
    · split
      · exact congrArg (c :: ·) (ih _)
      · rfl
    · rfl

/-- The place of a tokenizer in its input. -/
structure Scanner where
  /-- The input that is left. -/
  rest : List Char
  /-- The current line, counted from 1. -/
  line : Nat := 1
deriving DecidableEq

/-- What a scanner gives in one go. -/
structure Scan where
  /-- The pieces discarded on the way. -/
  skipped : List Token
  /-- The token, or why there is none. -/
  outcome : Except TokenizeError Token
  /-- Where the scanner then stands. -/
  scanner : Scanner

namespace Scanner

/-- The error of a piece without a name: the first character may not occur, or the piece with the
character that stopped it is no token. -/
def fault (m : Munch) (line : Nat) : TokenizeError :=
  match m.lexeme, m.rest with
  | [], c :: _ =>
    if isAccepted c then .noSuchToken (String.singleton c) line else .invalidCharacter c line
  | lexeme, rest => .noSuchToken (String.ofList (lexeme ++ rest.head?.toList)) line

/-- The next piece, by its name, and where the scanner then stands. -/
def piece (d : Dfa) (s : Scanner) : Except TokenizeError Token × Scanner :=
  let m := d.munch 0 s.rest
  let next : Scanner := { rest := m.rest, line := s.line + lineBreaks m.lexeme m.rest }
  match m.lexeme, d.winnerAt? m.state with
  | _ :: _, some owner =>
    (.ok { name := owner.name, lexeme := String.ofList m.lexeme, line := s.line }, next)
  | _, _ => (.error (fault m s.line), next)

/-- A piece has at least one character. -/
theorem length_rest_of_piece {d : Dfa} {s next : Scanner} {t : Token}
    (h : s.piece d = (.ok t, next)) : next.rest.length < s.rest.length := by
  have happend := congrArg List.length (d.munch_append 0 s.rest)
  rw [List.length_append] at happend
  rw [piece] at h
  split at h
  · next hl _ =>
    cases h
    rw [hl, List.length_cons] at happend
    show (d.munch 0 s.rest).rest.length < s.rest.length
    omega
  · cases h

/-- The next token of the input: the first piece that is not discarded, or at the end of the input
the end-of-input token. -/
def scan (d : Dfa) (config : Config) (s : Scanner) : Scan :=
  if s.rest.isEmpty then
    { skipped := [], outcome := .ok (.atEnd config.eof s.line), scanner := s }
  else
    match _h : s.piece d with
    | (.error e, next) => { skipped := [], outcome := .error e, scanner := next }
    | (.ok t, next) =>
      if t.name = config.skip then
        let scan := next.scan d config
        { scan with skipped := t :: scan.skipped }
      else { skipped := [], outcome := .ok t, scanner := next }
termination_by s.rest.length
decreasing_by exact length_rest_of_piece (by assumption)

/-- A token other than the end-of-input token has at least one character. -/
theorem length_rest_of_scan {d : Dfa} {config : Config} {s : Scanner} {t : Token}
    (h : (s.scan d config).outcome = .ok t) :
    t.name = config.eof ∨ (s.scan d config).scanner.rest.length < s.rest.length := by
  fun_induction scan d config s with
  | case1 => cases h; exact .inl rfl
  | case2 => cases h
  | case3 s _ t next hp _ scan ih =>
    exact (ih h).imp_right fun h => Nat.lt_trans h (length_rest_of_piece hp)
  | case4 s _ t next hp => exact .inr (length_rest_of_piece hp)

end Scanner

end Predictive
