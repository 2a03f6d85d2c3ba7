import Predictive.Proofs.VocabularyScan

/-!
# Line endings of grammar texts

The line feeds of a grammar text can be replaced by other line breaks (`Grammar.rebreak`). The scanner
then takes the same steps (`Vocabulary.scan_rebreak`): the tokens differ only in the texts of line
breaks, which no block depends on (`BlockReader.read_unbroken`), and an error only in the text that is
no token. So all line endings give one grammar, or one error (`Grammar.parse_rebreak`).
-/

namespace Predictive.Grammar

/-! ## Replacing line breaks -/

/-- The text with a line break in place of each line feed. -/
def rebreak (e cs : List Char) : List Char := cs.flatMap fun c => if c = '\n' then e else [c]

/-- The line breaks other than a line feed. -/
def returns : List (List Char) := [['\r', '\n'], ['\r']]

variable {e cs w rest : List Char} {c : Char}

theorem rebreak_feed (e cs : List Char) : rebreak e ('\n' :: cs) = e ++ rebreak e cs := rfl

theorem rebreak_cons (hc : c ≠ '\n') : rebreak e (c :: cs) = c :: rebreak e cs := by
  rw [rebreak, List.flatMap_cons, if_neg hc]
  rfl

theorem rebreak_append_of_notMem (hw : '\n' ∉ w) : rebreak e (w ++ rest) = w ++ rebreak e rest := by
  induction w with
  | nil => rfl
  | cons c w ih =>
    rw [List.mem_cons, not_or] at hw
    rw [List.cons_append, rebreak_cons (Ne.symm hw.1), ih hw.2, List.cons_append]

theorem exists_eq_cons (he : e ∈ returns) : ∃ more, e = '\r' :: more ∧ more ∈ [['\n'], []] := by
  simp only [returns, List.mem_cons, List.not_mem_nil, or_false] at he
  rcases he with rfl | rfl
  · exact ⟨['\n'], rfl, List.mem_cons_self⟩
  · exact ⟨[], rfl, List.mem_cons_of_mem _ List.mem_cons_self⟩

/-- What replaces line feeds begins with a carriage return. -/
theorem head?_rebreak_ne (he : e ∈ returns) (cs : List Char) : (rebreak e cs).head? ≠ some '\n' := by
  cases cs with
  | nil => nofun
  | cons c cs =>
    by_cases hc : c = '\n'
    · obtain ⟨more, rfl, -⟩ := exists_eq_cons he
      rw [hc, rebreak_feed]
      exact nofun
    · rw [rebreak_cons hc]
      exact fun h => hc (Option.some.inj h)

namespace Vocabulary

/-! ## Scanning -/

/-- The token without its text if it is a line break. -/
def unbroken (t : Token) : Token := if t.name = "eol" then { t with lexeme := "" } else t

/-- The error without the text that is no token. -/
def unquoted : TokenizeError → TokenizeError
  | .noSuchToken _ line => .noSuchToken "" line
  | error => error

/-- Two scans agree but for the texts of line breaks and of what is no token. -/
structure Agree (x y : List Token × Except TokenizeError Token) : Prop where
  tokens : x.1.map unbroken = y.1.map unbroken
  ending : x.2.mapError unquoted = y.2.mapError unquoted

/-- A tail that goes over no line break. -/
def Tail.WithinLine : Tail → Prop
  | run p => p '\n' = false ∧ p '\r' = false
  | oneOf texts => ∀ t ∈ texts, '\n' ∉ t ∧ '\r' ∉ t

/-- Tails stay within the line, except after a `\` and for line breaks themselves. -/
theorem withinLine_or {name : String} {tail : Tail} (h : tail? c = some (name, tail))
    (hfeed : c ≠ '\n') (hreturn : c ≠ '\r') :
    tail.WithinLine ∨ c = '\\' ∧ name = "skip" ∧ tail = .oneOf breaks := by
  unfold tail? at h
  split at h
  · cases h
    exact .inl ⟨by decide, by decide⟩
  · split at h <;> cases h
    case h_8 => exact absurd rfl hreturn
    case h_9 => exact absurd rfl hfeed
    case h_13 => exact .inr ⟨rfl, rfl, rfl⟩
    all_goals exact .inl (by simp [Tail.WithinLine, isBlank, inComment])

theorem begun_rebreak (he : e ∈ returns) {texts : List (List Char)}
    (h : (Tail.oneOf texts).WithinLine) (cs : List Char) :
    begun texts (rebreak e cs) = begun texts cs ∧ '\n' ∉ begun texts cs := by
  induction cs generalizing texts with
  | nil => exact ⟨rfl, List.not_mem_nil⟩
  | cons c cs ih =>
    have hafter {d : Char} (hd : d = '\n' ∨ d = '\r') : after d texts = [] := by
      refine List.eq_nil_iff_forall_not_mem.2 fun t ht => ?_
      have hmem := mem_after.1 ht
      rcases hd with rfl | rfl
      · exact (h _ hmem).1 List.mem_cons_self
      · exact (h _ hmem).2 List.mem_cons_self
    by_cases hc : c = '\n'
    · obtain ⟨more, rfl, -⟩ := exists_eq_cons he
      have hfeed : begun texts ('\n' :: cs) = [] := by
        rw [begun, hafter (.inl rfl)]
        rfl
      rw [hc, rebreak_feed, List.cons_append, hfeed, begun, hafter (.inr rfl)]
      exact ⟨rfl, List.not_mem_nil⟩
    · have hwithin : (Tail.oneOf (after c texts)).WithinLine := fun t ht =>
        (h _ (mem_after.1 ht)).imp (mt (List.mem_cons_of_mem c)) (mt (List.mem_cons_of_mem c))
      rw [rebreak_cons hc, begun, begun, (ih hwithin).1]
      refine ⟨rfl, ?_⟩
      split
      · exact List.not_mem_nil
      · rw [List.mem_cons, not_or]
        exact ⟨Ne.symm hc, (ih hwithin).2⟩

/-- A tail within the line is read alike. -/
theorem read_rebreak (he : e ∈ returns) {tail : Tail} (h : tail.WithinLine) (cs : List Char) :
    tail.read (rebreak e cs) = tail.read cs ∧ '\n' ∉ tail.read cs := by
  cases tail with
  | oneOf texts => exact begun_rebreak he h cs
  | run p =>
    obtain ⟨hfeed, hreturn⟩ := h
    refine ⟨?_, fun hmem => ?_⟩
    · show List.takeWhile _ _ = List.takeWhile _ _
      induction cs with
      | nil => rfl
      | cons c cs ih =>
        by_cases hc : c = '\n'
        · obtain ⟨more, rfl, -⟩ := exists_eq_cons he
          rw [hc, rebreak_feed, List.cons_append, List.takeWhile_cons_of_neg, List.takeWhile_cons_of_neg]
          · simp [hfeed]
          · simp [hreturn]
        · rw [rebreak_cons hc, List.takeWhile_cons, List.takeWhile_cons, ih]
    · have hread := List.mem_takeWhile_imp hmem
      simp [hfeed] at hread

theorem begun_nil_singleton (cs : List Char) : begun [[]] cs = [] := by
  cases cs <;> rfl

/-- After a carriage return, a line feed belongs to the line break, and nothing else does. -/
theorem begun_feed {more : List Char} (hmore : more ∈ [['\n'], []])
    (hrest : rest.head? ≠ some '\n') : begun [['\n'], []] (more ++ rest) = more := by
  simp only [List.mem_cons, List.not_mem_nil, or_false] at hmore
  rcases hmore with rfl | rfl
  · exact congrArg ('\n' :: ·) (begun_nil_singleton rest)
  · cases rest with
    | nil => rfl
    | cons c rest =>
      have hc : '\n' ≠ c := fun hc => hrest (congrArg some hc.symm)
      simp [begun, after, hc]

theorem begun_breaks_cons (hfeed : c ≠ '\n') (hreturn : c ≠ '\r') (cs : List Char) :
    begun breaks (c :: cs) = [] := by
  simp [begun, after, breaks, Ne.symm hfeed, Ne.symm hreturn]

/-- Two scans that each take a piece, of one name, agree if they agree from there on. -/
theorem Agree.step {name : String} {tail tail' : Tail} {c' : Char} {w' rest' : List Char} {line : Nat}
    (htail : tail? c = some (name, tail)) (hread : tail.read (w ++ rest) = w)
    (hw : tail.complete w = true) (htail' : tail? c' = some (name, tail'))
    (hread' : tail'.read (w' ++ rest') = w') (hw' : tail'.complete w' = true)
    (hline : lineAfter line (c :: w) = lineAfter line (c' :: w'))
    (htoken : name = "skip" ∨ unbroken { name, lexeme := String.ofList (c :: w), line } =
      unbroken { name, lexeme := String.ofList (c' :: w'), line })
    (h : Agree (scan (lineAfter line (c' :: w')) rest) (scan (lineAfter line (c' :: w')) rest')) :
    Agree (scan line (c :: (w ++ rest))) (scan line (c' :: (w' ++ rest'))) := by
  rw [scan_of_complete htail hread hw, scan_of_complete htail' hread' hw', hline]
  split
  · exact h
  · next hname => exact ⟨congrArg₂ List.cons (htoken.resolve_left hname) h.tokens, h.ending⟩

section Steps

variable {more : List Char} (he : '\r' :: more ∈ returns) (hmore : more ∈ [['\n'], []]) (line : Nat)

include hmore in
theorem lineAfter_return (w : List Char) : lineAfter line (w ++ '\r' :: more) = line + 1 := by
  have hlast : ∀ more ∈ [['\n'], []], ('\r' :: more).getLast? = some '\n' ∨
      ('\r' :: more).getLast? = some '\r' := by decide
  rw [lineAfter, List.getLast?_append_of_ne_nil w (List.cons_ne_nil _ _), if_pos (hlast more hmore)]

include he

include hmore in
/-- Line breaks of either kind are tokens that end the line. -/
theorem agree_break (h : Agree (scan (line + 1) (rebreak ('\r' :: more) cs)) (scan (line + 1) cs)) :
    Agree (scan line ('\r' :: (more ++ rebreak ('\r' :: more) cs))) (scan line ('\n' :: cs)) := by
  have hread : Tail.read (.oneOf [['\n'], []]) (more ++ rebreak ('\r' :: more) cs) = more :=
    begun_feed hmore (head?_rebreak_ne he cs)
  have hread' : Tail.read (.oneOf [[]]) ([] ++ cs) = [] := begun_nil_singleton cs
  have htoken : unbroken ⟨"eol", String.ofList ('\r' :: more), line⟩ =
      unbroken ⟨"eol", String.ofList ['\n'], line⟩ := by simp [unbroken]
  exact Agree.step rfl hread (List.contains_iff_mem.2 hmore) rfl hread' rfl
    (lineAfter_return hmore line []) (.inr htoken) h

include hmore in
/-- A `\` takes a line break of either kind with it. -/
theorem agree_continued
    (h : Agree (scan (line + 1) (rebreak ('\r' :: more) cs)) (scan (line + 1) cs)) :
    Agree (scan line ('\\' :: ('\r' :: more ++ rebreak ('\r' :: more) cs)))
      (scan line ('\\' :: (['\n'] ++ cs))) := by
  have hread : Tail.read (.oneOf breaks) ('\r' :: more ++ rebreak ('\r' :: more) cs) = '\r' :: more :=
    congrArg ('\r' :: ·) (begun_feed hmore (head?_rebreak_ne he cs))
  have hread' : Tail.read (.oneOf breaks) (['\n'] ++ cs) = ['\n'] :=
    congrArg ('\n' :: ·) (begun_nil_singleton cs)
  have hcomplete := (by decide : ∀ more ∈ [['\n'], []], '\r' :: more ∈ breaks) more hmore
  exact Agree.step rfl hread (List.contains_iff_mem.2 hcomplete) rfl hread' rfl
    (lineAfter_return hmore line ['\\']) (.inl rfl) h

/-- A piece within the line is the same, or is none in either text. -/
theorem agree_within {name : String} {tail : Tail} (htail : tail? c = some (name, tail))
    (hwithin : tail.WithinLine) (hcs : '\r' ∉ cs)
    (h : ∀ rest line, rest.length ≤ cs.length → '\r' ∉ rest →
      Agree (scan line (rebreak ('\r' :: more) rest)) (scan line rest)) :
    Agree (scan line (c :: rebreak ('\r' :: more) cs)) (scan line (c :: cs)) := by
  obtain ⟨w, rest, rfl, hread⟩ := Tail.exists_read (accepted_and_proper htail).2 cs
  obtain ⟨hread', hfeed⟩ := read_rebreak he hwithin (w ++ rest)
  rw [hread] at hread' hfeed
  rw [rebreak_append_of_notMem hfeed] at hread' ⊢
  cases hcomplete : tail.complete w with
  | true =>
    refine Agree.step htail hread' hcomplete htail hread hcomplete rfl (.inr rfl) (h rest _ ?_ ?_)
    · rw [List.length_append]
      exact Nat.le_add_left _ _
    · exact fun hmem => hcs (List.mem_append_right w hmem)
  | false =>
    rw [scan_of_incomplete htail hread' hcomplete, scan_of_incomplete htail hread hcomplete]
    exact ⟨rfl, rfl⟩

end Steps

theorem scan_continued_of_ne (hfeed : c ≠ '\n') (hreturn : c ≠ '\r') (cs : List Char) (line : Nat) :
    scan line ('\\' :: c :: cs) = ([], .error (.noSuchToken (String.ofList ['\\', c]) line)) := by
  have hread : Tail.read (.oneOf breaks) ([] ++ c :: cs) = [] := begun_breaks_cons hfeed hreturn cs
  exact scan_of_incomplete rfl hread rfl line

/-- A text with other line breaks is scanned alike. -/
theorem scan_rebreak (he : e ∈ returns) (hcs : '\r' ∉ cs) (line : Nat) :
    Agree (scan line (rebreak e cs)) (scan line cs) := by
  obtain ⟨more, rfl, hmore⟩ := exists_eq_cons he
  induction hlength : cs.length using Nat.strong_induction_on generalizing cs line with
  | _ n ih =>
    subst hlength
    have hrest (rest : List Char) (line : Nat) (hlt : rest.length < cs.length) (hrest : '\r' ∉ rest) :
        Agree (scan line (rebreak ('\r' :: more) rest)) (scan line rest) :=
      ih rest.length hlt hrest line rfl
    cases cs with
    | nil => exact ⟨rfl, rfl⟩
    | cons c cs =>
      rw [List.mem_cons, not_or] at hcs
      by_cases hc : c = '\n'
      · subst hc
        exact agree_break he hmore line (hrest cs _ (Nat.lt_succ_self _) hcs.2)
      rw [rebreak_cons hc]
      cases htail : tail? c with
      | none =>
        rw [scan, scan, htail]
        exact ⟨rfl, rfl⟩
      | some row =>
        rcases withinLine_or htail hc (Ne.symm hcs.1) with hwithin | ⟨rfl, -, -⟩
        · exact agree_within he line htail hwithin hcs.2 fun rest line hle =>
            hrest rest line (Nat.lt_succ_of_le hle)
        · cases cs with
          | nil => exact ⟨rfl, rfl⟩
          | cons d cs =>
            rw [List.mem_cons, not_or] at hcs
            by_cases hd : d = '\n'
            · subst hd
              have hlt : cs.length < ('\\' :: '\n' :: cs).length :=
                Nat.lt_of_lt_of_le (Nat.lt_succ_self _) (Nat.le_succ _)
              exact agree_continued he hmore line (hrest cs _ hlt hcs.2.2)
            · rw [rebreak_cons hd, scan_continued_of_ne hd (Ne.symm hcs.2.1),
                scan_continued_of_ne hd (Ne.symm hcs.2.1)]
              exact ⟨rfl, rfl⟩

end Vocabulary

/-! ## Reading blocks -/

open Vocabulary (unbroken unquoted Agree)

/-- The error without the text that is no token. -/
def Error.unquoted (e : Error) : Error :=
  match e.fault with
  | .tokenize error => { e with fault := .tokenize (Vocabulary.unquoted error) }
  | _ => e

theorem unquoted_ofTokenize (error : TokenizeError) :
    (Error.ofTokenize error).unquoted = .ofTokenize (Vocabulary.unquoted error) := by
  cases error <;> rfl

namespace BlockReader

/-- No block depends on the text of a line break. -/
theorem feed_unbroken (r : BlockReader) (t : Token) : r.feed (unbroken t) = r.feed t := by
  unfold unbroken
  split
  · next h =>
    have hkind : Vocabulary.Kind.ofName? t.name = some .eol := by rw [h]; rfl
    unfold feed
    dsimp only
    rw [hkind]
    rfl
  · rfl

theorem read_unbroken (tokens : List Token) (ending : Except TokenizeError Token) :
    read (tokens.map unbroken) ending = read tokens ending := by
  rw [read, read, List.foldlM_map]
  simp only [feed_unbroken]

theorem read_unquoted (tokens : List Token) (ending : Except TokenizeError Token) :
    (read tokens (ending.mapError unquoted)).mapError Error.unquoted =
      (read tokens ending).mapError Error.unquoted := by
  have hidem (e : TokenizeError) : unquoted (unquoted e) = unquoted e := by cases e <;> rfl
  cases ending with
  | ok eof => rfl
  | error e =>
    unfold read
    cases tokens.foldlM feed {} with
    | error e' => rfl
    | ok r =>
      show Except.error (Error.unquoted (Error.ofTokenize (unquoted e))) =
        Except.error (Error.unquoted (Error.ofTokenize e))
      rw [unquoted_ofTokenize, unquoted_ofTokenize, hidem]

/-- Scans that agree give the same blocks, or the same error. -/
theorem read_agree {x y : List Token × Except TokenizeError Token} (h : Agree x y) :
    (read x.1 x.2).mapError Error.unquoted = (read y.1 y.2).mapError Error.unquoted := by
  rw [← read_unquoted, ← read_unquoted y.1, ← read_unbroken, ← read_unbroken y.1, h.tokens, h.ending]

end BlockReader

/-! ## Grammars -/

/-- Where a text without carriage returns has other line breaks in place of its line feeds, the same
grammar is compiled, or there is the same error on the same line, up to the text that is no token. -/
theorem parse_rebreak {text : String} (h : '\r' ∉ text.toList) (config : Config) : ∀ e ∈ returns,
    (parse (String.ofList (rebreak e text.toList)) config).mapError Error.unquoted =
      (parse text config).mapError Error.unquoted := by
  intro e he
  have hblocks : (readBlocks (String.ofList (rebreak e text.toList))).mapError Error.unquoted =
      (readBlocks text).mapError Error.unquoted := by
    rw [readBlocks_eq_read_scan, readBlocks_eq_read_scan, String.toList_ofList]
    exact BlockReader.read_agree (Vocabulary.scan_rebreak he h 1)
  exact mapError_bind_congr (mapError_bind_congr hblocks)

/-- A rule that goes on in the next line, and a comment before a line break. -/
theorem parse_rebreak_continued :
    let text := "S -> a S?\nA -> \\\n b* # more\n"
    '\r' ∉ text.toList ∧ ∃ g, parse text {} = .ok g ∧
      parse (String.ofList (rebreak ['\r', '\n'] text.toList)) {} = .ok g ∧
      parse (String.ofList (rebreak ['\r'] text.toList)) {} = .ok g := by
  intro text
  have hok : (parse text {}).isOk = true := by
    unfold parse readRules
    rw [readBlocks_eq_read_scan]
    decide +kernel
  obtain ⟨g, hg⟩ := exists_eq_ok_of_isOk hok
  have hreturn : '\r' ∉ text.toList := by decide
  have hrebreak := parse_rebreak hreturn {}
  rw [hg] at hrebreak
  refine ⟨hreturn, g, hg, ?_, ?_⟩
  · exact mapError_eq_ok_iff.1 (hrebreak _ List.mem_cons_self)
  · exact mapError_eq_ok_iff.1 (hrebreak _ (List.mem_cons_of_mem _ List.mem_cons_self))

end Predictive.Grammar
