import Predictive.Proofs.Determinization
import Predictive.Proofs.WellFormed
import Predictive.Token.Tokenizer

/-!
# Pieces of an input

A piece can be read on the nondeterministic automaton, with the set of states reached so far
(`Scanner.piece_ofNfa`), and is made of what leads there (`Nfa.set_munch`). The tokens of an input
are its pieces in order, without those that are discarded (`Tokenizer.cut_eq_cut`).
-/

namespace Predictive

/-! ## Reading on a set of states -/

/-- What a set of states reads in one go. -/
structure Nfa.Reading where
  /-- The characters read. -/
  lexeme : List Char
  /-- The states reached. -/
  set : SortedSet Nat
  /-- The input that follows. -/
  rest : List Char

namespace Nfa

variable {n : Nfa} {set : SortedSet Nat}

/-- Reads from a set of states as long as characters are accepted and lead to some state. -/
def munch (n : Nfa) (set : SortedSet Nat) : List Char → Reading
  | [] => { lexeme := [], set, rest := [] }
  | c :: cs =>
    let next := n.advance set (.char c)
    if isAccepted c ∧ next.isEmpty = false then
      let r := n.munch next cs
      { r with lexeme := c :: r.lexeme }
    else { lexeme := [], set, rest := c :: cs }

theorem set_munch_after (n : Nfa) (before cs : List Char) :
    (n.munch (n.after before) cs).set = n.after (before ++ (n.munch (n.after before) cs).lexeme) := by
  induction cs generalizing before with
  | nil => simp [munch]
  | cons c cs ih =>
    unfold munch
    dsimp only
    split
    · rw [← after_concat]
      simpa using ih (before ++ [c])
    · simp

/-- What is reached is what the characters read lead to. -/
theorem set_munch (n : Nfa) (cs : List Char) :
    (n.munch n.startSet cs).set = n.after (n.munch n.startSet cs).lexeme :=
  n.set_munch_after [] cs

end Nfa

/-- The deterministic automaton reads what the sets that its states stand for read. -/
theorem Dfa.munch_ofNfa {n : Nfa} (hn : n.WellFormed) {id : Nat} {set : SortedSet Nat}
    (hid : n.subsets[id]? = some set) (cs : List Char) :
    ((ofNfa n).munch id cs).lexeme = (n.munch set cs).lexeme ∧
      ((ofNfa n).munch id cs).rest = (n.munch set cs).rest ∧
        n.subsets[((ofNfa n).munch id cs).state]? = some (n.munch set cs).set := by
  induction cs generalizing id set with
  | nil => exact ⟨rfl, rfl, hid⟩
  | cons c cs ih =>
    have hstep := step_ofNfa hn.bounded hid c
    unfold munch Nfa.munch
    dsimp only
    by_cases hc : isAccepted c = true
    · cases hempty : (n.advance set (.char c)).isEmpty with
      | true =>
        have hnone : (ofNfa n).step id c = none := by rw [hstep, target?, hempty]; rfl
        rw [if_pos hc, hnone, if_neg (by simp)]
        exact ⟨rfl, rfl, hid⟩
      | false =>
        have hsome : (ofNfa n).step id c =
            some (n.subsets.idxOf (n.advance set (.char c))) := by rw [hstep, target?, hempty]; rfl
        have hnext := advance_mem_subsets hn.bounded (List.mem_of_getElem? hid) hempty
        rw [if_pos hc, hsome, if_pos ⟨hc, rfl⟩]
        obtain ⟨hlexeme, hrest, hstate⟩ := ih (List.getElem?_idxOf hnext)
        exact ⟨congrArg (c :: ·) hlexeme, hrest, hstate⟩
    · rw [if_neg hc, if_neg fun h => hc h.1]
      exact ⟨rfl, rfl, hid⟩

namespace Scanner

/-- The next piece, read on the nondeterministic automaton. -/
def pieceBy (n : Nfa) (s : Scanner) : Except TokenizeError Token × Scanner :=
  let r := n.munch n.startSet s.rest
  let next : Scanner := { rest := r.rest, line := s.line + lineBreaks r.lexeme r.rest }
  match r.lexeme, (n.ownersOf r.set).first? with
  | _ :: _, some owner =>
    (.ok { name := owner.name, lexeme := String.ofList r.lexeme, line := s.line }, next)
  | _, _ => (.error (fault { lexeme := r.lexeme, state := 0, rest := r.rest } s.line), next)

theorem piece_ofNfa {n : Nfa} (hn : n.WellFormed) (s : Scanner) :
    s.piece (.ofNfa n) = s.pieceBy n := by
  have hstart : n.subsets[0]? = some n.startSet :=
    List.head?_eq_getElem?.symm.trans (Nfa.subsets_spec hn.bounded).1
  obtain ⟨hlexeme, hrest, hstate⟩ := Dfa.munch_ofNfa hn hstart s.rest
  have hwinner : (Dfa.ofNfa n).winnerAt? ((Dfa.ofNfa n).munch 0 s.rest).state =
      (n.ownersOf (n.munch n.startSet s.rest).set).first? := by
    unfold Dfa.winnerAt?
    rw [Dfa.getElem?_ofNfa, hstate]
    rfl
  have hfault : fault ((Dfa.ofNfa n).munch 0 s.rest) s.line =
      fault { lexeme := (n.munch n.startSet s.rest).lexeme, state := 0,
              rest := (n.munch n.startSet s.rest).rest } s.line := by
    unfold fault
    rw [hlexeme, hrest]
  unfold piece pieceBy
  dsimp only
  rewrite [hwinner, hfault, hlexeme, hrest]
  rfl

/-! ## Cutting an input into pieces -/

/-- The tokens up to the end of the input or an error, and the end-of-input token or the error. The
number bounds the pieces. -/
def cut (piece : Scanner → Except TokenizeError Token × Scanner) (config : Config) :
    Nat → Scanner → List Token × Except TokenizeError Token
  | 0, s => ([], .ok (.atEnd config.eof s.line))
  | pieces + 1, s =>
    if s.rest.isEmpty then ([], .ok (.atEnd config.eof s.line))
    else
      match piece s with
      | (.error e, _) => ([], .error e)
      | (.ok t, next) =>
        if t.name = config.skip then cut piece config pieces next
        else if t.name = config.eof then ([], .ok t)
        else
          let others := cut piece config pieces next
          (t :: others.1, others.2)

/-- Tokens are pieces. -/
theorem exists_piece_of_mem_cut {piece : Scanner → Except TokenizeError Token × Scanner}
    {config : Config} {pieces : Nat} {s : Scanner} {t : Token}
    (h : t ∈ (cut piece config pieces s).1) : ∃ s' next, piece s' = (.ok t, next) := by
  fun_induction cut piece config pieces s with
  | case1 => cases h
  | case2 => cases h
  | case3 => cases h
  | case4 pieces s _ u next _ _ ih => exact ih h
  | case5 => cases h
  | case6 pieces s _ u next hpiece _ _ others ih =>
    rcases List.mem_cons.1 h with rfl | h
    · exact ⟨s, next, hpiece⟩
    · exact ih h

end Scanner

namespace Scanner

variable {d : Dfa} {config : Config} {s next : Scanner}

theorem scan_of_isEmpty (h : s.rest.isEmpty = true) : s.scan d config =
    { skipped := [], outcome := .ok (.atEnd config.eof s.line), scanner := s } := by
  rw [scan, if_pos h]

theorem scan_of_error (h : s.rest.isEmpty = false) {e : TokenizeError}
    (hpiece : s.piece d = (.error e, next)) :
    s.scan d config = { skipped := [], outcome := .error e, scanner := next } := by
  rw [scan, h, if_neg (by decide)]
  split <;> simp_all

theorem scan_of_piece (h : s.rest.isEmpty = false) {t : Token}
    (hpiece : s.piece d = (.ok t, next)) : s.scan d config =
      if t.name = config.skip then
        { next.scan d config with skipped := t :: (next.scan d config).skipped }
      else { skipped := [], outcome := .ok t, scanner := next } := by
  rw [scan, h, if_neg (by decide)]
  split
  · simp_all
  · next hp =>
    rw [hpiece] at hp
    cases hp
    rfl

end Scanner

namespace Tokenizer

variable {z : Tokenizer} {t : Token}

/-- The tokens of an input, with what ends them. -/
def cut (z : Tokenizer) : List Token × Except TokenizeError Token :=
  (z.collect.tokens, z.collect.ending)

theorem cut_of_error (hahead : z.ahead = []) {e : TokenizeError} (h : z.scan.outcome = .error e) :
    z.cut = ([], .error e) := by
  have hnext : z.next = (.error e, { z with scanner := z.scan.scanner }) := by
    rw [next, hahead]
    dsimp only
    rw [h]
  rw [cut, collect]
  split <;> simp_all

theorem cut_of_ok (hahead : z.ahead = []) (h : z.scan.outcome = .ok t) :
    z.cut = if t.name = z.config.eof then ([], .ok t) else
      let others := ({ z with scanner := z.scan.scanner }.keep t).cut
      (t :: others.1, others.2) := by
  have hnext : z.next = (.ok t, { z with scanner := z.scan.scanner }.keep t) := by
    rw [next, hahead]
    dsimp only
    rw [h]
  rw [cut, collect]
  split
  · simp_all
  · next u after hu =>
    rw [hnext] at hu
    cases hu
    split <;> rfl

/-- A discarded piece leaves no trace in what follows. -/
theorem cut_of_skip (hahead : z.ahead = []) (hrest : z.scanner.rest.isEmpty = false)
    {next : Scanner} (hpiece : z.scanner.piece z.patterns.dfa = (.ok t, next))
    (hskip : t.name = z.config.skip) : z.cut = { z with scanner := next }.cut := by
  have hscan : z.scan =
      { next.scan z.patterns.dfa z.config with
        skipped := t :: (next.scan z.patterns.dfa z.config).skipped } := by
    rw [scan, Scanner.scan_of_piece hrest hpiece, if_pos hskip]
  cases houtcome : (next.scan z.patterns.dfa z.config).outcome with
  | error e =>
    rw [cut_of_error hahead (by rw [hscan]; exact houtcome)]
    exact (cut_of_error (z := { z with scanner := next }) hahead houtcome).symm
  | ok u =>
    rw [cut_of_ok hahead (by rw [hscan]; exact houtcome), hscan]
    exact (cut_of_ok (z := { z with scanner := next }) hahead houtcome).symm

theorem cut_of_isEmpty (hahead : z.ahead = []) (hrest : z.scanner.rest.isEmpty = true) :
    z.cut = ([], .ok (.atEnd z.config.eof z.scanner.line)) := by
  rw [cut_of_ok hahead (congrArg Scan.outcome (Scanner.scan_of_isEmpty hrest))]
  exact if_pos rfl

/-- A tokenizer at the start of an input gives the tokens that the input is cut into. -/
theorem cut_eq_cut (hahead : z.ahead = []) {pieces : Nat}
    (hpieces : z.scanner.rest.length ≤ pieces) :
    z.cut = z.scanner.cut (Scanner.piece z.patterns.dfa) z.config pieces := by
  induction pieces generalizing z with
  | zero =>
    have hrest := List.isEmpty_iff_length_eq_zero.2 (Nat.le_zero.1 hpieces)
    exact cut_of_isEmpty hahead hrest
  | succ pieces ih =>
    unfold Scanner.cut
    cases hrest : z.scanner.rest.isEmpty with
    | true => exact cut_of_isEmpty hahead hrest
    | false =>
      rw [if_neg (by decide)]
      cases hpiece : z.scanner.piece z.patterns.dfa with
      | mk outcome next =>
        cases outcome with
        | error e =>
          exact cut_of_error hahead (congrArg Scan.outcome (Scanner.scan_of_error hrest hpiece))
        | ok t =>
          have hlt := Scanner.length_rest_of_piece hpiece
          have hshorter : next.rest.length ≤ pieces := by omega
          by_cases hskip : t.name = z.config.skip
          · rw [cut_of_skip hahead hrest hpiece hskip]
            exact (ih (z := { z with scanner := next }) hahead hshorter).trans (if_pos hskip).symm
          · have hscan : z.scan = { skipped := [], outcome := .ok t, scanner := next } :=
              (Scanner.scan_of_piece hrest hpiece).trans (if_neg hskip)
            have hnext := ih (z := { z with scanner := next }.keep t) hahead hshorter
            rw [cut_of_ok hahead (congrArg Scan.outcome hscan), hscan]
            dsimp only
            rw [hnext, if_neg hskip]
            rfl

/-- The tokens of a text, cut into pieces that are read on the automaton of all patterns. -/
theorem cut_ofText (patterns : List Pattern) (input : String) {pieces : Nat}
    (hpieces : input.toList.length ≤ pieces) :
    (ofText (.ofPatterns patterns) input).cut =
      Scanner.cut (Scanner.pieceBy (Patterns.joined patterns)) {} pieces
        { rest := input.toList } := by
  have hpiece : Scanner.pieceBy (Patterns.joined patterns) =
      Scanner.piece (.ofNfa (Patterns.joined patterns)) := by
    funext s
    exact (Scanner.piece_ofNfa (Nfa.WellFormed.joined patterns) s).symm
  rw [hpiece]
  exact cut_eq_cut rfl hpieces

end Tokenizer

end Predictive
