import Predictive.Grammar.Basic
import Predictive.Proofs.LongestMatch
import Predictive.Proofs.VocabularyWords

/-!
# Scanning grammar texts

A scanner of grammar texts without automata (`Vocabulary.scan`): the first character of a token tells
its name, and how far it goes. `Vocabulary.collect_eq_scan` shows that a tokenizer with the patterns of
grammar texts gives just what this scanner gives, errors included, and that the name of a pattern is
one token, so that a grammar can refer to it.
-/

namespace Predictive

/-- The starts of an input that go no further than characters of a class. -/
theorem prefix_takeWhile_iff {p : Char → Bool} {w cs : List Char} :
    w <+: cs.takeWhile p ↔ w <+: cs ∧ ∀ c ∈ w, p c = true := by
  constructor
  · exact fun h => ⟨h.trans (List.takeWhile_prefix p),
      fun c hc => List.mem_takeWhile_imp (h.subset hc)⟩
  · rintro ⟨⟨rest, rfl⟩, hw⟩
    rw [List.takeWhile_append_of_pos hw]
    exact List.prefix_append w _

namespace Grammar.Vocabulary

/-! ## Tails -/

/-- What follows a character in texts that begin with it. -/
def after (c : Char) (texts : List (List Char)) : List (List Char) :=
  texts.filterMap fun t => if t.head? = some c then some t.tail else none

/-- The longest start of an input that begins one of some texts. -/
def begun : List (List Char) → List Char → List Char
  | _, [] => []
  | texts, c :: cs => if (after c texts).isEmpty then [] else c :: begun (after c texts) cs

/-- How far a tail goes in an input. -/
def Tail.read : Tail → List Char → List Char
  | run p, cs => cs.takeWhile fun c => isAccepted c && p c
  | oneOf texts, cs => begun texts cs

/-- Whether a text that was read for a tail is one. -/
def Tail.complete : Tail → List Char → Bool
  | run _, _ => true
  | oneOf texts, w => texts.contains w

/-- The line after a piece that starts on a line. -/
def lineAfter (line : Nat) (piece : List Char) : Nat :=
  if piece.getLast? = some '\n' ∨ piece.getLast? = some '\r' then line + 1 else line

/-- The tokens of an input that starts on a line, and the end-of-input token or the error that ends
them. -/
def scan (line : Nat) : List Char → List Token × Except TokenizeError Token
  | [] => ([], .ok (.atEnd eofName line))
  | c :: cs =>
    match tail? c with
    | none =>
      if isAccepted c then ([], .error (.noSuchToken (String.ofList [c]) line))
      else ([], .error (.invalidCharacter c line))
    | some (name, tail) =>
      let w := tail.read cs
      let rest := cs.drop w.length
      if tail.complete w then
        let later := scan (lineAfter line (c :: w)) rest
        if name = "skip" then later
        else ({ name, lexeme := String.ofList (c :: w), line } :: later.1, later.2)
      else ([], .error (.noSuchToken (String.ofList (c :: w ++ rest.head?.toList)) line))
termination_by cs => cs.length
decreasing_by
  rw [List.length_drop, List.length_cons]
  omega

/-! ### The longest start -/

variable {c : Char} {cs rest t w : List Char} {texts : List (List Char)} {tail : Tail} {name : String}

theorem mem_after : t ∈ after c texts ↔ c :: t ∈ texts := by
  unfold after
  rw [List.mem_filterMap]
  constructor
  · rintro ⟨u, hu, hsome⟩
    obtain ⟨hhead, htail⟩ := Option.ite_none_right_eq_some.1 hsome
    obtain ⟨u', rfl⟩ := List.head?_eq_some_iff.1 hhead
    rwa [← Option.some.inj htail]
  · exact fun h => ⟨c :: t, h, if_pos rfl⟩

theorem isPrefix_begun (texts : List (List Char)) (cs : List Char) : begun texts cs <+: cs := by
  induction cs generalizing texts with
  | nil => exact List.nil_prefix
  | cons c cs ih =>
    unfold begun
    split
    · exact List.nil_prefix
    · exact List.cons_prefix_cons.2 ⟨rfl, ih _⟩

theorem exists_isPrefix_begun (cs : List Char) (h : texts ≠ []) : ∃ t ∈ texts, begun texts cs <+: t := by
  induction cs generalizing texts with
  | nil =>
    obtain ⟨t, ht⟩ := List.exists_mem_of_ne_nil texts h
    exact ⟨t, ht, List.nil_prefix⟩
  | cons c cs ih =>
    unfold begun
    split
    · obtain ⟨t, ht⟩ := List.exists_mem_of_ne_nil texts h
      exact ⟨t, ht, List.nil_prefix⟩
    · next hafter =>
      obtain ⟨t, ht, hstart⟩ := ih (List.isEmpty_eq_false_iff.1 (Bool.eq_false_iff.2 hafter))
      exact ⟨c :: t, mem_after.1 ht, List.cons_prefix_cons.2 ⟨rfl, hstart⟩⟩

theorem length_le_begun (ht : t ∈ texts) (hw : w <+: cs) (hwt : w <+: t) :
    w.length ≤ (begun texts cs).length := by
  induction cs generalizing texts t w with
  | nil => rw [List.prefix_nil.1 hw]; exact Nat.zero_le _
  | cons c cs ih =>
    cases w with
    | nil => exact Nat.zero_le _
    | cons d w =>
      obtain ⟨rfl, hrest⟩ := List.cons_prefix_cons.1 hw
      obtain ⟨t, rfl⟩ : ∃ t', t = d :: t' := by
        obtain ⟨more, rfl⟩ := hwt
        exact ⟨_, rfl⟩
      have hmem : t ∈ after d texts := mem_after.2 ht
      unfold begun
      rw [if_neg fun hempty => List.ne_nil_of_mem hmem (List.isEmpty_iff.1 hempty)]
      exact Nat.succ_le_succ (ih hmem hrest (List.cons_prefix_cons.1 hwt).2)

/-- A tail can be completed; texts to choose from hold only characters that an input may. -/
def Tail.Proper : Tail → Prop
  | run _ => True
  | oneOf texts => texts ≠ [] ∧ ∀ t ∈ texts, ∀ c ∈ t, isAccepted c = true

/-- What is read for a tail is the longest start that begins one. -/
structure Tail.Reads (tail : Tail) (cs w : List Char) : Prop where
  accepted : w <+: cs.takeWhile isAccepted
  begins : ∃ v ∈ tail.language, w <+: v
  length_le : ∀ w', w' <+: cs.takeWhile isAccepted → (∃ v ∈ tail.language, w' <+: v) →
    w'.length ≤ w.length

theorem mem_language_run {p : Char → Bool} : w ∈ (Tail.run p).language ↔ ∀ c ∈ w, p c = true :=
  mem_kstar_oneIn

theorem complete_iff (hbegins : ∃ v ∈ tail.language, w <+: v) :
    tail.complete w = true ↔ w ∈ tail.language := by
  obtain ⟨v, hv, hstart⟩ := hbegins
  cases tail with
  | run p =>
    exact iff_of_true rfl (mem_language_run.2 fun c hc => mem_language_run.1 hv c (hstart.subset hc))
  | oneOf texts => exact List.contains_iff_mem

theorem Tail.reads_read (h : tail.Proper) (cs : List Char) : tail.Reads cs (tail.read cs) := by
  cases tail with
  | run p =>
    have hread : ∀ {w}, w <+: Tail.read (.run p) cs ↔ w <+: cs ∧ ∀ c ∈ w, isAccepted c && p c :=
      prefix_takeWhile_iff
    obtain ⟨hstart, hall⟩ := hread.1 (List.prefix_refl _)
    simp only [Bool.and_eq_true] at hall hread
    refine ⟨prefix_takeWhile_iff.2 ⟨hstart, fun c hc => (hall c hc).1⟩,
      ⟨_, mem_language_run.2 fun c hc => (hall c hc).2, List.prefix_refl _⟩, ?_⟩
    rintro w' hw' ⟨v, hv, hstart'⟩
    obtain ⟨hcs, haccepted⟩ := prefix_takeWhile_iff.1 hw'
    exact (hread.2 ⟨hcs, fun c hc =>
      ⟨haccepted c hc, mem_language_run.1 hv c (hstart'.subset hc)⟩⟩).length_le
  | oneOf texts =>
    obtain ⟨hne, haccepted⟩ := h
    obtain ⟨t, ht, hstart⟩ := exists_isPrefix_begun cs hne
    refine ⟨prefix_takeWhile_iff.2 ⟨isPrefix_begun texts cs,
      fun c hc => haccepted t ht c (hstart.subset hc)⟩, ⟨t, ht, hstart⟩, ?_⟩
    rintro w' hw' ⟨v, hv, hstart'⟩
    exact length_le_begun hv (hw'.trans (List.takeWhile_prefix _)) hstart'

/-- A tail that could be longer is not followed by what would make it so. -/
theorem Tail.Reads.head?_ne (h : tail.Reads (w ++ rest) w) (hlonger : w ++ [c] ∈ tail.language)
    (hc : isAccepted c = true) : rest.head? ≠ some c := by
  intro hhead
  obtain ⟨rest, rfl⟩ := List.head?_eq_some_iff.1 hhead
  obtain ⟨-, haccepted⟩ := prefix_takeWhile_iff.1 h.accepted
  have hstart : w ++ [c] <+: (w ++ c :: rest).takeWhile isAccepted := by
    refine prefix_takeWhile_iff.2 ⟨⟨rest, by simp⟩, fun d hd => ?_⟩
    rcases List.mem_append.1 hd with hd | hd
    · exact haccepted d hd
    · rwa [List.mem_singleton.1 hd]
  have hle := h.length_le _ hstart ⟨_, hlonger, List.prefix_refl _⟩
  rw [List.length_append, List.length_singleton] at hle
  omega

/-! ### One step of the scanner -/

/-- A piece is a token, unless it is to be skipped, and the rest is scanned from the line after it. -/
theorem scan_of_complete (htail : tail? c = some (name, tail)) (hread : tail.read (w ++ rest) = w)
    (hw : tail.complete w = true) (line : Nat) : scan line (c :: (w ++ rest)) =
      if name = "skip" then scan (lineAfter line (c :: w)) rest
      else ({ name, lexeme := String.ofList (c :: w), line } ::
        (scan (lineAfter line (c :: w)) rest).1, (scan (lineAfter line (c :: w)) rest).2) := by
  rw [scan, htail]
  dsimp only
  rw [hread, List.drop_left, hw, if_pos rfl]

/-- Where a tail is not completed, no token is found. -/
theorem scan_of_incomplete (htail : tail? c = some (name, tail)) (hread : tail.read (w ++ rest) = w)
    (hw : tail.complete w = false) (line : Nat) : scan line (c :: (w ++ rest)) =
      ([], .error (.noSuchToken (String.ofList (c :: w ++ rest.head?.toList)) line)) := by
  rw [scan, htail]
  dsimp only
  rw [hread, List.drop_left, hw, if_neg Bool.false_ne_true]

/-- What is read for a tail begins the input. -/
theorem Tail.exists_read (h : tail.Proper) (cs : List Char) :
    ∃ w rest, cs = w ++ rest ∧ tail.read (w ++ rest) = w := by
  obtain ⟨rest, hrest⟩ := (Tail.reads_read h cs).accepted.trans (List.takeWhile_prefix _)
  exact ⟨_, rest, hrest.symm, congrArg tail.read hrest⟩

/-! ### The table of tails -/

theorem isAccepted_of_isNameChar (h : isNameChar c = true) : isAccepted c = true := by
  have hcode := toNat_of_isNameChar h
  simp only [isAccepted, Bool.or_eq_true, Bool.and_eq_true, decide_eq_true_eq]
  omega

theorem isNameChar_of_isLetter (h : isLetter c = true) : isNameChar c = true := by
  rw [isNameChar, h, Bool.true_or]

/-- A name is made of characters of names, at least one. -/
theorem isNameChar_of_mem_word (h : cs ∈ Word "id") : cs ≠ [] ∧ ∀ d ∈ cs, isNameChar d = true := by
  obtain ⟨c, tail, w, rfl, htail, hw⟩ := h
  unfold tail? at htail
  split at htail
  · next hc =>
    cases htail
    exact ⟨List.cons_ne_nil c w,
      List.forall_mem_cons.2 ⟨isNameChar_of_isLetter hc, mem_language_run.1 hw⟩⟩
  · split at htail <;> simp at htail

/-- The first character of a token is one that an input may hold, and its tail can be completed. -/
theorem accepted_and_proper (h : tail? c = some (name, tail)) : isAccepted c = true ∧ tail.Proper := by
  unfold tail? at h
  split at h
  · next hc =>
    cases h
    exact ⟨isAccepted_of_isNameChar (isNameChar_of_isLetter hc), trivial⟩
  · split at h <;> cases h
    all_goals exact ⟨by decide, by simp [Tail.Proper, breaks, isAccepted]⟩

/-- The tokens of the scanner are words of their names. -/
theorem mem_word_of_mem_scan {line : Nat} : ∀ t ∈ (scan line cs).1, t.lexeme.toList ∈ Word t.name := by
  fun_induction scan line cs with
  | case1 | case2 | case3 | case6 => exact fun t ht => absurd ht List.not_mem_nil
  | case4 line c cs tail htail w rest hcomplete later ih => exact ih
  | case5 line c cs name tail htail w rest hcomplete later hname ih =>
    refine List.forall_mem_cons.2 ⟨?_, ih⟩
    have hreads := Tail.reads_read (accepted_and_proper htail).2 cs
    rw [String.toList_ofList]
    exact ⟨c, tail, w, rfl, htail, (complete_iff hreads.begins).1 hcomplete⟩

end Grammar.Vocabulary

/-! ## Lines -/

/-- A text without line breaks completes none. -/
theorem lineBreaks_eq_zero {read : List Char} (h : ∀ d ∈ read, d ≠ '\n' ∧ d ≠ '\r')
    (rest : List Char) : lineBreaks read rest = 0 := by
  induction read with
  | nil => rfl
  | cons c cs ih =>
    obtain ⟨hc, hcs⟩ := List.forall_mem_cons.1 h
    rw [lineBreaks, ih hcs, if_neg (by simp [hc])]

namespace Grammar.Vocabulary

variable {c : Char} {cs rest t w : List Char} {texts : List (List Char)} {tail : Tail} {name : String}

theorem add_lineBreaks_eq_self (h : ∀ d ∈ w, d ≠ '\n' ∧ d ≠ '\r') (line : Nat) (rest : List Char) :
    line + Predictive.lineBreaks w rest = lineAfter line w := by
  have hlast : ¬ (w.getLast? = some '\n' ∨ w.getLast? = some '\r') := by
    rintro (hlast | hlast)
    · exact (h _ (List.mem_of_getLast? hlast)).1 rfl
    · exact (h _ (List.mem_of_getLast? hlast)).2 rfl
  rw [lineBreaks_eq_zero h, lineAfter, if_neg hlast, add_zero]

theorem lineBreaks_of_mem_breaks (h : w ∈ breaks)
    (hsplit : w = ['\r'] → rest.head? ≠ some '\n') : Predictive.lineBreaks w rest = 1 := by
  simp only [breaks, List.mem_cons, List.not_mem_nil, or_false] at h
  rcases h with rfl | rfl | rfl
  · rfl
  · simp [Predictive.lineBreaks, hsplit rfl]
  · rfl

theorem ne_break_of_isNameChar (h : isNameChar c = true) : c ≠ '\n' ∧ c ≠ '\r' := by
  constructor <;> rintro rfl <;> revert h <;> decide

theorem ne_break_of_isBlank (h : isBlank c = true) : c ≠ '\n' ∧ c ≠ '\r' := by
  constructor <;> rintro rfl <;> revert h <;> decide

theorem ne_break_of_inComment (h : inComment c = true) : c ≠ '\n' ∧ c ≠ '\r' := by
  constructor <;> rintro rfl <;> revert h <;> decide

/-- A piece completes a line exactly if it ends with a line break. -/
theorem add_lineBreaks_eq (htail : tail? c = some (name, tail)) (hreads : tail.Reads (w ++ rest) w)
    (hw : w ∈ tail.language) (line : Nat) :
    line + Predictive.lineBreaks (c :: w) rest = lineAfter line (c :: w) := by
  have hplain (hc : c ≠ '\n' ∧ c ≠ '\r') (hw : ∀ d ∈ w, d ≠ '\n' ∧ d ≠ '\r') :=
    add_lineBreaks_eq_self (List.forall_mem_cons.2 ⟨hc, hw⟩) line rest
  unfold tail? at htail
  split at htail
  · next hc =>
    cases htail
    exact hplain (ne_break_of_isNameChar (isNameChar_of_isLetter hc))
      fun d hd => ne_break_of_isNameChar (mem_language_run.1 hw d hd)
  · split at htail <;> cases htail
    case h_10 | h_11 =>
      exact hplain (by decide) fun d hd => ne_break_of_isBlank (mem_language_run.1 hw d hd)
    case h_12 =>
      exact hplain (by decide) fun d hd => ne_break_of_inComment (mem_language_run.1 hw d hd)
    case h_8 =>
      have hbreak : '\r' :: w ∈ breaks :=
        (by decide : ∀ v ∈ [['\n'], []], '\r' :: v ∈ breaks) w hw
      rw [lineBreaks_of_mem_breaks hbreak, lineAfter, if_pos]
      · exact (by decide : ∀ v ∈ [['\n'], []], ('\r' :: v).getLast? = some '\n' ∨
          ('\r' :: v).getLast? = some '\r') w hw
      · intro hsplit
        obtain rfl : w = [] := (List.cons.inj hsplit).2
        exact hreads.head?_ne List.mem_cons_self (by decide)
    case h_9 =>
      obtain rfl := List.mem_singleton.1 hw
      rfl
    case h_13 =>
      show line + (0 + Predictive.lineBreaks w rest) = _
      rw [zero_add, lineBreaks_of_mem_breaks hw, lineAfter, if_pos]
      · exact (by decide : ∀ v ∈ breaks, ('\\' :: v).getLast? = some '\n' ∨
          ('\\' :: v).getLast? = some '\r') w hw
      · rintro rfl
        exact hreads.head?_ne List.mem_cons_self (by decide)
    all_goals
      obtain rfl := List.mem_singleton.1 hw
      exact hplain (by decide) (by simp)

/-! ## What the patterns cut off -/

section Words

variable {words : PatternSet} (hwords : patterns = .ok words)

include hwords

theorem compiled_words : words.Compiled := .inl ⟨definitions, hwords⟩

theorem exists_accepts_iff {text : String} : (∃ p ∈ words.patterns, p.definition.internal = false ∧
    p.accepts text = true ∧ p.definition.name = name) ↔ text.toList ∈ Word name := by
  rw [← PatternSet.Compiled.names_iff (compiled_words hwords), names_iff_mem_word hwords]

theorem begins_cons_iff : words.Begins (c :: w) ↔
    ∃ name tail, tail? c = some (name, tail) ∧ ∃ v ∈ tail.language, w <+: v := by
  constructor
  · rintro ⟨p, hp, hinternal, whole, hstart, haccepts⟩
    obtain ⟨d, tail, v, hwhole, htail, hv⟩ :=
      (exists_accepts_iff hwords).1 ⟨p, hp, hinternal, haccepts, rfl⟩
    rw [hwhole] at hstart
    obtain ⟨rfl, hw⟩ := List.cons_prefix_cons.1 hstart
    exact ⟨_, tail, htail, v, hv, hw⟩
  · rintro ⟨name, tail, htail, v, hv, hstart⟩
    have hword : (String.ofList (c :: v)).toList ∈ Word name := by
      rw [String.toList_ofList]
      exact ⟨c, tail, v, rfl, htail, hv⟩
    obtain ⟨p, hp, hinternal, haccepts, -⟩ := (exists_accepts_iff hwords).2 hword
    refine ⟨p, hp, hinternal, _, ?_, haccepts⟩
    rw [String.toList_ofList]
    exact List.cons_prefix_cons.2 ⟨rfl, hstart⟩

theorem name_of_namedBy? {p : Pattern} (h : words.namedBy? (String.ofList cs) = some p) :
    cs ∈ Word p.definition.name := by
  obtain ⟨hp, hinternal⟩ := PatternSet.mem_of_namedBy? h
  have hfound := List.find?_some h
  rw [Bool.and_eq_true] at hfound
  have hword := (exists_accepts_iff hwords).1 ⟨p, hp, hinternal, hfound.2, rfl⟩
  rwa [String.toList_ofList] at hword

theorem notMem_word_of_namedBy?_eq_none (h : words.namedBy? (String.ofList cs) = none) :
    cs ∉ Word name := by
  intro hword
  rw [← String.toList_ofList (l := cs)] at hword
  obtain ⟨p, hp, hinternal, haccepts, -⟩ := (exists_accepts_iff hwords).2 hword
  have hnone := List.find?_eq_none.1 h p hp
  simp [hinternal, haccepts] at hnone

/-- The longest text that begins a token is a first character and what is read for its tail. -/
theorem eq_cons_read (htail : tail? c = some (name, tail)) {p : List Char}
    (h : words.Longest (c :: cs) p) : p = c :: tail.read cs := by
  obtain ⟨hc, hproper⟩ := accepted_and_proper htail
  have hread := Tail.reads_read hproper cs
  have haccepted := h.accepted
  rw [List.takeWhile_cons_of_pos hc] at haccepted
  have hle : (c :: tail.read cs).length ≤ p.length := by
    refine h.length_le _ ?_ ((begins_cons_iff hwords).2 ⟨name, tail, htail, hread.begins⟩)
    rw [List.takeWhile_cons_of_pos hc]
    exact List.cons_prefix_cons.2 ⟨rfl, hread.accepted⟩
  cases p with
  | nil => exact absurd hle (Nat.not_succ_le_zero _)
  | cons d w =>
    obtain ⟨rfl, hw⟩ := List.cons_prefix_cons.1 haccepted
    obtain ⟨name', tail', htail', hbegins⟩ :=
      (begins_cons_iff hwords).1 (h.begins.resolve_left (List.cons_ne_nil d w))
    obtain ⟨rfl, rfl⟩ := Prod.mk.inj (Option.some.inj (htail.symm.trans htail'))
    have hge := hread.length_le w hw hbegins
    exact congrArg (d :: ·) ((List.prefix_of_prefix_length_le hw hread.accepted hge).eq_of_length_le
      (Nat.succ_le_succ_iff.1 hle))

/-- Where no token begins, nothing is read. -/
theorem eq_nil_of_longest (htail : tail? c = none) {p : List Char}
    (h : words.Longest (c :: cs) p) : p = [] := by
  cases p with
  | nil => rfl
  | cons d w =>
    obtain ⟨rfl, -⟩ := List.cons_prefix_cons.1 (h.accepted.trans (List.takeWhile_prefix _))
    obtain ⟨name, tail, htail', -⟩ :=
      (begins_cons_iff hwords).1 (h.begins.resolve_left (List.cons_ne_nil d w))
    rw [htail] at htail'
    cases htail'

/-- The scanner cuts an input as the patterns do. -/
theorem scan_eq_of_cuts {s : Scanner} {pieces : List Token} {ending : Except TokenizeError Token}
    {left : List Char} (h : words.Cuts {} s pieces ending left) :
    scan s.line s.rest = (pieces.filter fun t => t.name ≠ "skip", ending) := by
  induction h with
  | atEnd => rw [scan]; rfl
  | @piece p rest line q pieces ending left hlongest hne hnamed _ ih =>
    obtain ⟨c, tail, w, rfl, htail, hw⟩ := name_of_namedBy? hwords hnamed
    have hread : c :: w = c :: tail.read (w ++ rest) := eq_cons_read hwords htail hlongest
    replace hread : tail.read (w ++ rest) = w := (List.cons.inj hread).2.symm
    have hreads := hread ▸ Tail.reads_read (accepted_and_proper htail).2 (w ++ rest)
    have hcomplete := (complete_iff ⟨w, hw, List.prefix_refl w⟩).2 hw
    rw [List.cons_append, scan_of_complete htail hread hcomplete, ← add_lineBreaks_eq htail hreads hw,
      ih, List.filter_cons]
    simp only [decide_eq_true_eq, ite_not]
    split <;> rfl
  | @invalid c rest line hc =>
    have htail : tail? c = none := by
      refine Option.eq_none_iff_forall_ne_some.2 fun ⟨name, tail⟩ htail => ?_
      rw [(accepted_and_proper htail).1] at hc
      cases hc
    rw [scan, htail]
    simp [hc]
  | @noToken c p rest line hlongest hnamed hhead hc =>
    obtain ⟨cs, hinput⟩ := List.head?_eq_some_iff.1 hhead
    cases htail : tail? c with
    | none =>
      obtain rfl := eq_nil_of_longest hwords htail (hinput ▸ hlongest)
      obtain rfl : rest = c :: cs := hinput
      rw [List.nil_append, scan, htail]
      simp [hc]
    | some row =>
      obtain ⟨name, tail⟩ := row
      obtain rfl := eq_cons_read hwords htail (hinput ▸ hlongest)
      have hcs : tail.read cs ++ rest = cs := (List.cons.inj hinput).2
      have hword : c :: tail.read cs ∉ Word name :=
        notMem_word_of_namedBy?_eq_none hwords (hnamed.resolve_left (List.cons_ne_nil _ _))
      have hcomplete : tail.complete (tail.read cs) = false := by
        have hreads := Tail.reads_read (accepted_and_proper htail).2 cs
        rw [Bool.eq_false_iff, ne_eq, complete_iff hreads.begins]
        exact fun hw => hword ⟨c, tail, _, rfl, htail, hw⟩
      exact scan_of_incomplete htail (congrArg tail.read hcs) hcomplete line

/-- A tokenizer with the patterns of grammar texts gives what the scanner gives. -/
theorem cut_eq_scan (input : String) : (Tokenizer.ofText words input).cut = scan 1 input.toList := by
  have hcompiled := compiled_words hwords
  have heof : ∀ p ∈ words.patterns, p.definition.internal = false →
      p.definition.name ≠ ({} : Config).eof := by
    obtain ⟨patterns', hdefined, rfl⟩ := hcompiled.exists_defined
    intro p hp _ hname
    exact hdefined.eofName_notMem (List.mem_map.2 ⟨p, hp, hname⟩)
  obtain ⟨pieces, left, hcuts, htokens⟩ :=
    hcompiled.exists_cuts heof (le_refl input.toList.length) 1
  rw [Tokenizer.cut_eq_cut (z := .ofText words input) rfl le_rfl, scan_eq_of_cuts hwords hcuts]
  exact Prod.ext htokens rfl

end Words

/-! ## Names of patterns -/

theorem scan_of_isName (h : Definitions.isName cs = true) (line : Nat) :
    scan line cs = ([⟨"id", String.ofList cs, line⟩], .ok (.atEnd eofName line)) := by
  cases cs with
  | nil => cases h
  | cons c cs =>
    rw [Definitions.isName, Bool.and_eq_true, List.all_eq_true] at h
    have hcs : ∀ d ∈ cs, isNameChar d = true := fun d hd => by
      have hd := h.2 d hd
      simp only [Char.isAlphanum, Bool.or_eq_true, beq_iff_eq] at hd
      simp only [isNameChar, isLetter, Bool.or_eq_true, decide_eq_true_eq]
      tauto
    have hc : isLetter c = true := by rw [isLetter, h.1, Bool.true_or]
    have hread : Tail.read (.run isNameChar) cs = cs := List.takeWhile_eq_self_iff.2 fun d hd => by
      rw [hcs d hd, isAccepted_of_isNameChar (hcs d hd), Bool.and_self]
    have hplain : ∀ d ∈ c :: cs, d ≠ '\n' ∧ d ≠ '\r' := List.forall_mem_cons.2
      ⟨ne_break_of_isNameChar (isNameChar_of_isLetter hc), fun d hd => ne_break_of_isNameChar (hcs d hd)⟩
    rw [scan, show tail? c = some ("id", .run isNameChar) from if_pos hc]
    dsimp only
    rw [hread, List.drop_length, ← add_lineBreaks_eq_self hplain line [], lineBreaks_eq_zero hplain,
      scan]
    rfl

end Grammar.Vocabulary

namespace Definitions

theorem isName_of_parse {line : List Char} {d : Definition} (h : parse line = .ok d) :
    isName d.name.toList = true := by
  unfold parse at h
  split at h
  dsimp only at h
  split at h
  · cases h
  -- past the checks of the name, only the last one is left
  split at h
  · cases h
  split at h
  · cases h
  next hname =>
    split at h
    · cases h
    split at h
    · cases h
    · obtain rfl := Except.ok.inj h
      rw [String.toList_ofList]
      simpa using hname

/-- The patterns of a definition text have names. -/
theorem isName_of_mem_patterns {text : String} {s : PatternSet} (h : PatternSet.parse text = .ok s)
    {p : Pattern} (hp : p ∈ s.patterns) : isName p.definition.name.toList = true := by
  obtain ⟨patterns, hlines, rfl⟩ := map_eq_ok_iff.1 h
  obtain ⟨found, hfound, hfold⟩ := Definitions.exists_found_of_defineLines hlines
  have hnames := (PatternSet.describes_of_foldlM hfold).names
  have hmem : p.definition.name ∈ found.reduceOption.map (·.name) := by
    rw [← List.mem_eraseDups, ← hnames]
    exact List.mem_map_of_mem hp
  obtain ⟨d, hd, hname⟩ := List.mem_map.1 hmem
  obtain ⟨line, -, hline⟩ := exists_of_mapM_eq_ok hfound _ (List.reduceOption_mem_iff.1 hd)
  rw [← hname]
  unfold parseLine at hline
  split at hline
  · cases hline
  · obtain ⟨d', hd', heq⟩ := map_eq_ok_iff.1 hline
    rw [← Option.some.inj heq]
    exact isName_of_parse hd'

end Definitions

namespace Grammar.Vocabulary

/-- The definitions of tokens compile, and with their patterns every input gives the tokens that the
scanner finds, and ends as this does. The name of a pattern in a definition text that compiles is one
such token: a name. -/
theorem collect_eq_scan : ∃ words, patterns = .ok words ∧
    (∀ input : String, ((Tokenizer.ofText words input).collect.tokens,
      (Tokenizer.ofText words input).collect.ending) = scan 1 input.toList) ∧
    ∀ text s, PatternSet.parse text = .ok s → ∀ p ∈ s.patterns,
      (Tokenizer.ofText words p.definition.name).tokenize.1 =
        .ok [⟨"id", p.definition.name, 1⟩] := by
  obtain ⟨patterns', hwords, -⟩ := exists_patterns
  refine ⟨_, hwords, cut_eq_scan hwords, fun text s hs p hp => ?_⟩
  have hcut := (cut_eq_scan hwords p.definition.name).trans
    (scan_of_isName (Definitions.isName_of_mem_patterns hs hp) 1)
  rw [String.ofList_toList] at hcut
  show (Tokenizer.cut _).2.map (fun _ => (Tokenizer.cut _).1) = _
  rw [hcut]
  rfl

/-- A line break after a `\\` and one after a comment, and a text that begins as `[>1]` does. The name
of a pattern that is only embedded is a name, too. -/
theorem collect_eq_scan_broken :
    let input := "A->b[>1]\\\r\n # c\r[>"
    ∃ words s p, patterns = .ok words ∧
      (Tokenizer.ofText words input).collect.tokens = [⟨"id", "A", 1⟩, ⟨"sep", "->", 1⟩, ⟨"id", "b", 1⟩,
        ⟨"multi_child", "[>1]", 1⟩, ⟨"eol", "\r", 2⟩] ∧
      (Tokenizer.ofText words input).collect.ending = .error (.noSuchToken "[>" 3) ∧
      PatternSet.parse ":a_1: x\nb: :a_1:*" = .ok s ∧ p ∈ s.patterns ∧ p.definition.name = "a_1" ∧
      (Tokenizer.ofText words p.definition.name).tokenize.1 = .ok [⟨"id", "a_1", 1⟩] := by
  intro input
  obtain ⟨words, hwords, hscan, hname⟩ := collect_eq_scan
  obtain ⟨s, hs, hp⟩ : ∃ s, PatternSet.parse ":a_1: x\nb: :a_1:*" = .ok s ∧
      ∃ p ∈ s.patterns, p.definition.name = "a_1" := PatternSet.exists_parse_and _ (by decide +kernel)
  obtain ⟨p, hp, heq⟩ := hp
  have hinput : scan 1 input.toList = ([⟨"id", "A", 1⟩, ⟨"sep", "->", 1⟩, ⟨"id", "b", 1⟩,
      ⟨"multi_child", "[>1]", 1⟩, ⟨"eol", "\r", 2⟩], .error (.noSuchToken "[>" 3)) := by
    decide +kernel
  obtain ⟨htokens, hending⟩ := Prod.mk.inj ((hscan input).trans hinput)
  exact ⟨words, s, p, hwords, htokens, hending, hs, hp, heq, heq ▸ hname _ s hs p hp⟩

end Grammar.Vocabulary

/-- The blocks of a grammar text are read from what the scanner gives. -/
theorem Grammar.readBlocks_eq_read_scan (text : String) : readBlocks text =
    BlockReader.read (Vocabulary.scan 1 text.toList).1 (Vocabulary.scan 1 text.toList).2 := by
  obtain ⟨patterns, hwords, -⟩ := Vocabulary.exists_patterns
  unfold readBlocks
  rw [hwords, ← Vocabulary.cut_eq_scan hwords]
  rfl

end Predictive
