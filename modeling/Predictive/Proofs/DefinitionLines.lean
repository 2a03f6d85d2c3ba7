import Predictive.Proofs.PatternLanguages

/-!
# Definitions written line by line

A definition text that holds one definition per line (`PatternSet.definitionText`) is cut into these
lines again, and each line reads as the definition written on it, if this can be written on a line
(`Definition.Writable`, `Definitions.parseLine_definitionLine`). So the text compiles to the same set as
the list of the definitions, and fails at the line of the definition at which the list fails
(`PatternSet.parse_definitionText_agrees`).
-/

namespace Predictive

/-! ## Lines and trimming -/

namespace Text

variable {cs : List Char}

/-- A line that ends in no carriage return is read up to its line feed. -/
theorem linesFrom_append {line : List Char} (hfeed : '\n' ∉ line) (read rest : List Char) :
    linesFrom read (line ++ '\n' :: rest) =
      (dropReturn (line.reverse ++ read)).reverse :: linesFrom [] rest := by
  induction line generalizing read with
  | nil => simp [linesFrom]
  | cons c line ih =>
    rw [List.mem_cons, not_or] at hfeed
    rw [List.cons_append, linesFrom, if_neg (Ne.symm hfeed.1), ih hfeed.2]
    simp

theorem dropReturn_eq_self (h : cs.head? ≠ some '\r') : dropReturn cs = cs := by
  unfold dropReturn
  split
  · exact absurd rfl h
  · rfl

theorem toList_unlines (lines : List String) :
    (unlines lines).toList = lines.flatMap fun line => line.toList ++ ['\n'] := by
  simp [unlines, String.toList_join, List.flatMap_map]

/-- The lines of which a text is made are found again. -/
theorem lines_unlines {lines : List String}
    (h : ∀ line ∈ lines, '\n' ∉ line.toList ∧ line.toList.getLast? ≠ some '\r') :
    Text.lines (unlines lines).toList = lines.map String.toList := by
  rw [toList_unlines]
  induction lines with
  | nil => rfl
  | cons line lines ih =>
    obtain ⟨⟨hfeed, hreturn⟩, hrest⟩ := List.forall_mem_cons.1 h
    rw [← List.head?_reverse] at hreturn
    rw [List.flatMap_cons, List.append_assoc, List.singleton_append, Text.lines,
      linesFrom_append hfeed, List.append_nil, dropReturn_eq_self hreturn, List.reverse_reverse,
      ← Text.lines, ih hrest, List.map_cons]

theorem linesFrom_append_feed {read : List Char} (hread : cs = [] → read ≠ [] ∧ read.head? ≠ some '\r')
    (hfeed : cs.getLast? ≠ some '\n') (hreturn : cs.getLast? ≠ some '\r') :
    linesFrom read (cs ++ ['\n']) = linesFrom read cs := by
  induction cs generalizing read with
  | nil =>
    obtain ⟨hne, hreturn⟩ := hread rfl
    simp [linesFrom, dropReturn_eq_self hreturn, hne]
  | cons c cs ih =>
    have hlast (d : Char) (h : (c :: cs).getLast? ≠ some d) : cs.getLast? ≠ some d := by
      intro hcs
      simp [List.getLast?_cons, hcs] at h
    rw [List.cons_append, linesFrom, linesFrom]
    split
    · next hc =>
      have hne : cs ≠ [] := by
        rintro rfl
        exact hfeed (by rw [hc, List.getLast?_singleton])
      rw [ih (fun h => absurd h hne) (hlast _ hfeed) (hlast _ hreturn)]
    · refine ih (fun h => ⟨List.cons_ne_nil _ _, ?_⟩) (hlast _ hfeed) (hlast _ hreturn)
      rw [h, List.getLast?_singleton] at hreturn
      exact hreturn

/-- The line feed after the last line may be left out. -/
theorem lines_append_feed (hne : cs ≠ []) (hfeed : cs.getLast? ≠ some '\n')
    (hreturn : cs.getLast? ≠ some '\r') : lines (cs ++ ['\n']) = lines cs :=
  linesFrom_append_feed (fun h => absurd h hne) hfeed hreturn

theorem dropWhile_isBlank_eq_self (h : ∀ c ∈ cs.head?, isBlank c = false) :
    cs.dropWhile isBlank = cs := by
  cases cs with
  | nil => rfl
  | cons c cs => exact List.dropWhile_cons_of_neg (Bool.eq_false_iff.1 (h c rfl))

theorem trim_eq_self (hfirst : ∀ c ∈ cs.head?, isBlank c = false)
    (hlast : ∀ c ∈ cs.getLast?, isBlank c = false) : trim cs = cs := by
  rw [← List.head?_reverse] at hlast
  rw [trim, dropWhile_isBlank_eq_self hfirst, dropWhile_isBlank_eq_self hlast, List.reverse_reverse]

theorem trim_cons {c : Char} (hc : isBlank c = true) (cs : List Char) : trim (c :: cs) = trim cs := by
  rw [trim, List.dropWhile_cons_of_pos hc, trim]

end Text

/-! ## What can be written on a line -/

/-- A text in which every `#` stands directly after a `\` that is not itself escaped: cut from the left
into characters and pairs of a `\` and the character after it, it has no `#` of its own. -/
inductive Shielded : List Char → Prop
  | nil : Shielded []
  | char {c : Char} {cs : List Char} : c ≠ '#' → c ≠ '\\' → Shielded cs → Shielded (c :: cs)
  | pair {c : Char} {cs : List Char} : Shielded cs → Shielded ('\\' :: c :: cs)
  | dangling : Shielded ['\\']

/-- The definition can be written on a line of a definition text. -/
@[mk_iff]
structure Definition.Writable (d : Definition) : Prop where
  /-- The name is a letter followed by letters, digits and underscores. -/
  name : ∃ c cs, d.name.toList = c :: cs ∧ c.isAlpha ∧ ∀ x ∈ cs, x.isAlphanum ∨ x = '_'
  name_ne : d.name ≠ eofName
  regex_ne : d.regex ≠ ""
  first : ∀ c ∈ d.regex.toList.head?, Text.isBlank c = false
  last : ∀ c ∈ d.regex.toList.getLast?, Text.isBlank c = false
  feed_notMem : '\n' ∉ d.regex.toList
  shielded : Shielded d.regex.toList

theorem Shielded.append {left right : List Char} (hleft : ∀ c ∈ left, c ≠ '#' ∧ c ≠ '\\')
    (hright : Shielded right) : Shielded (left ++ right) := by
  induction left with
  | nil => exact hright
  | cons c left ih =>
    obtain ⟨⟨hhash, hslash⟩, hleft⟩ := List.forall_mem_cons.1 hleft
    exact .char hhash hslash (ih hleft)

namespace Definitions

variable {d : Definition} {ds : List Definition}

theorem cutComment_of_shielded {cs : List Char} (h : Shielded cs) : cutComment false cs = cs := by
  induction h with
  | nil | dangling => rfl
  | char hhash hslash _ ih => simp [cutComment, hhash, hslash, ih]
  | pair _ ih => simp [cutComment, ih]

theorem shielded_of_cutComment : ∀ {cs : List Char}, cutComment false cs = cs → Shielded cs
  | [], _ => .nil
  | c :: cs, h => by
    by_cases hhash : c = '#'
    · simp [cutComment, hhash] at h
    by_cases hslash : c = '\\'
    · subst hslash
      match cs with
      | [] => exact .dangling
      | d :: cs =>
        refine .pair (shielded_of_cutComment ?_)
        simpa [cutComment] using h
    · refine .char hhash hslash (shielded_of_cutComment ?_)
      simpa [cutComment, hhash, hslash] using h

/-- Exactly the shielded texts have no comment. -/
theorem cutComment_eq_self_iff {cs : List Char} : cutComment false cs = cs ↔ Shielded cs :=
  ⟨shielded_of_cutComment, cutComment_of_shielded⟩

instance (cs : List Char) : Decidable (Shielded cs) := decidable_of_iff _ cutComment_eq_self_iff

/-- What can be written on a line, as a check of its characters. -/
theorem writable_iff_check : d.Writable ↔
    (d.name.toList.head?.any (·.isAlpha) = true ∧
      d.name.toList.tail.all (fun c => c.isAlphanum || c = '_') = true) ∧
    d.name ≠ eofName ∧ d.regex ≠ "" ∧
    d.regex.toList.head?.all (fun c => !Text.isBlank c) = true ∧
    d.regex.toList.getLast?.all (fun c => !Text.isBlank c) = true ∧
    '\n' ∉ d.regex.toList ∧ Shielded d.regex.toList := by
  have hname : (∃ c cs, d.name.toList = c :: cs ∧ c.isAlpha ∧ ∀ x ∈ cs, x.isAlphanum ∨ x = '_') ↔
      d.name.toList.head?.any (·.isAlpha) = true ∧
        d.name.toList.tail.all (fun c => c.isAlphanum || c = '_') = true := by
    cases d.name.toList <;> simp
  have hblank (edge : Option Char) : (∀ c ∈ edge, Text.isBlank c = false) ↔
      edge.all (fun c => !Text.isBlank c) = true := by
    cases edge <;> simp
  rw [Definition.writable_iff, hname, hblank, hblank]

instance (d : Definition) : Decidable d.Writable := decidable_of_iff _ writable_iff_check.symm

/-- The characters of the line of a definition. -/
theorem toList_definitionLine (d : Definition) : (PatternSet.definitionLine d).toList =
    (if d.internal then [':'] else []) ++ d.name.toList ++ ':' :: ' ' :: d.regex.toList := by
  simp only [PatternSet.definitionLine]
  split <;> simp [toString]

/-- A text is read up to its first colon. -/
theorem span_of_notMem {name : List Char} (hname : ':' ∉ name) (rest : List Char) :
    (name ++ ':' :: rest).span (· ≠ ':') = (name, ':' :: rest) := by
  have hall : ∀ c ∈ name, decide (c ≠ ':') = true := fun c hc =>
    decide_eq_true fun h => hname (h ▸ hc)
  rw [List.span_eq_takeWhile_dropWhile, List.takeWhile_append_of_pos hall,
    List.dropWhile_append_of_pos hall]
  simp

/-- The codes of the characters of a name. -/
theorem toNat_of_isAlphanum {c : Char} (h : c.isAlphanum ∨ c = '_') :
    48 ≤ c.toNat ∧ c.toNat ≤ 57 ∨ 65 ≤ c.toNat ∧ c.toNat ≤ 90 ∨ c.toNat = 95 ∨
      97 ≤ c.toNat ∧ c.toNat ≤ 122 := by
  rcases h with h | rfl
  · delta Char.isAlphanum Char.isAlpha Char.isUpper Char.isLower Char.isDigit at h
    simp only [Bool.or_eq_true, Bool.and_eq_true, decide_eq_true_eq, ge_iff_le,
      UInt32.le_iff_toNat_le] at h
    have hcodes : 'A'.val.toNat = 65 ∧ 'Z'.val.toNat = 90 ∧ 'a'.val.toNat = 97 ∧ 'z'.val.toNat = 122 ∧
        '0'.val.toNat = 48 ∧ '9'.val.toNat = 57 := by decide
    have hval : c.toNat = c.val.toNat := rfl
    omega
  · decide

/-- A character of a name is no blank and has no meaning of its own on a line. -/
theorem plain_of_isAlphanum {c : Char} (h : c.isAlphanum ∨ c = '_') :
    Text.isBlank c = false ∧ c ≠ ':' ∧ c ≠ '#' ∧ c ≠ '\\' := by
  have hcode := toNat_of_isAlphanum h
  refine ⟨?_, ?_, ?_, ?_⟩
  · simp [Text.isBlank]
    omega
  all_goals
    rintro rfl
    revert hcode
    decide

end Definitions

namespace Definition.Writable

variable {d : Definition}

theorem plain_name (h : d.Writable) : ∀ c ∈ d.name.toList,
    Text.isBlank c = false ∧ c ≠ ':' ∧ c ≠ '#' ∧ c ≠ '\\' := by
  obtain ⟨first, rest, hname, hfirst, hrest⟩ := h.name
  rw [hname]
  refine List.forall_mem_cons.2 ⟨Definitions.plain_of_isAlphanum (.inl ?_), fun c hc => ?_⟩
  · simp [Char.isAlphanum, hfirst]
  · exact Definitions.plain_of_isAlphanum (hrest c hc)

theorem isName (h : d.Writable) : Definitions.isName d.name.toList = true := by
  obtain ⟨first, rest, hname, hfirst, hrest⟩ := h.name
  simpa [hname, Definitions.isName, hfirst] using hrest

theorem trim_name (h : d.Writable) : Text.trim d.name.toList = d.name.toList :=
  Text.trim_eq_self (fun c hc => (h.plain_name c (List.mem_of_mem_head? hc)).1)
    fun c hc => (h.plain_name c (List.mem_of_mem_getLast? hc)).1

theorem trim_regex (h : d.Writable) : Text.trim (' ' :: d.regex.toList) = d.regex.toList :=
  (Text.trim_cons rfl _).trans (Text.trim_eq_self h.first h.last)

theorem span_name (h : d.Writable) (rest : List Char) :
    (d.name.toList ++ ':' :: rest).span (· ≠ ':') = (d.name.toList, ':' :: rest) :=
  Definitions.span_of_notMem (fun hmem => (h.plain_name _ hmem).2.1 rfl) rest

end Definition.Writable

namespace Definitions

variable {d : Definition} {ds : List Definition}

/-- A line with the mark of an internal pattern, or without: what is before its first colon is a name, and
after it stands the regular expression with a space before it. -/
theorem parse_of_writable (h : d.Writable) :
    parse ((if d.internal then [':'] else []) ++ d.name.toList ++ ':' :: ' ' :: d.regex.toList) =
      .ok { d with position := 0 } := by
  have hne : d.name.toList.isEmpty = false := by
    obtain ⟨first, rest, hname, -⟩ := h.name
    rw [hname, List.isEmpty_cons]
  have hregex : d.regex.toList.isEmpty = false := by
    simpa using h.regex_ne
  unfold parse
  split
  next internal line hline =>
    obtain ⟨rfl, rfl⟩ : internal = d.internal ∧ line = d.name.toList ++ ':' :: ' ' :: d.regex.toList := by
      obtain ⟨first, rest, hname, -⟩ := h.name
      have hfirst : first ≠ ':' := (h.plain_name first (hname ▸ List.mem_cons_self)).2.1
      cases hinternal : d.internal <;> simp_all
    rw [h.span_name]
    simp only [h.trim_name, h.trim_regex, h.isName, hne, hregex, String.ofList_toList, h.name_ne,
      Bool.not_true, Bool.false_eq_true, if_false]
    rfl

/-- A line with a definition ends as its regular expression does, not in a blank. -/
theorem not_isBlank_of_mem_getLast? (h : d.Writable) {c : Char}
    (hc : c ∈ (PatternSet.definitionLine d).toList.getLast?) : Text.isBlank c = false := by
  have hregex : d.regex.toList ≠ [] := by
    simpa using h.regex_ne
  obtain ⟨last, hlast⟩ : ∃ last, d.regex.toList.getLast? = some last :=
    ⟨_, List.getLast?_eq_some_getLast hregex⟩
  refine h.last c ?_
  rw [toList_definitionLine] at hc
  simpa [List.getLast?_cons, hlast] using hc

/-- A line with a definition has neither a comment nor blanks around it. -/
theorem content_definitionLine (h : d.Writable) :
    content (PatternSet.definitionLine d).toList = (PatternSet.definitionLine d).toList := by
  obtain ⟨first, rest, hname, -⟩ := h.name
  have hshielded : Shielded (PatternSet.definitionLine d).toList := by
    rw [toList_definitionLine]
    have hseparator : ∀ c ∈ [':', ' '], c ≠ '#' ∧ c ≠ '\\' := by simp
    refine .append (fun c hc => ?_) (.append hseparator h.shielded)
    rcases List.mem_append.1 hc with hc | hc
    · split at hc
      · rw [List.mem_singleton.1 hc]
        decide
      · exact absurd hc List.not_mem_nil
    · exact (h.plain_name c hc).2.2
  have htrim : Text.trim (PatternSet.definitionLine d).toList =
      (PatternSet.definitionLine d).toList := by
    refine Text.trim_eq_self (fun c hc => ?_) fun c hc => not_isBlank_of_mem_getLast? h hc
    rw [toList_definitionLine, hname] at hc
    split at hc
    · cases hc
      rfl
    · cases hc
      exact (h.plain_name first (hname ▸ List.mem_cons_self)).1
  rw [content, htrim, cutComment_eq_self_iff.2 hshielded, htrim]

/-- The line of a definition reads as what is written on it. -/
theorem parseLine_definitionLine (h : d.Writable) :
    parseLine (PatternSet.definitionLine d).toList = .ok (some { d with position := 0 }) := by
  unfold parseLine
  rw [content_definitionLine h]
  split
  · next hnil => simp [toList_definitionLine] at hnil
  · next c cs hline =>
    rw [← hline, toList_definitionLine, parse_of_writable h]
    rfl

/-- The lines of definitions are read as the definitions are defined: both give the same patterns, or both
fail at the same definition. -/
theorem defineLines_cases (h : ∀ d ∈ ds, d.Writable) (patterns : List Pattern) (number : Nat) :
    (∃ all, ds.foldlM Patterns.define patterns = .ok all ∧
      defineLines patterns number (ds.map fun d => (PatternSet.definitionLine d).toList) = .ok all) ∨
    ∃ before d after next e, ds = before ++ d :: after ∧
      before.foldlM Patterns.define patterns = .ok next ∧ Patterns.define next d = .error e ∧
      defineLines patterns number (ds.map fun d => (PatternSet.definitionLine d).toList) =
        .error { line := number + before.length + 1, fault := .pattern d.name e } := by
  induction ds generalizing patterns number with
  | nil => exact .inl ⟨patterns, rfl, rfl⟩
  | cons d ds ih =>
    obtain ⟨hd, hds⟩ := List.forall_mem_cons.1 h
    have hline : defineLine patterns (PatternSet.definitionLine d).toList =
        (Patterns.define patterns d).mapError (.pattern d.name) := by
      unfold defineLine
      rw [parseLine_definitionLine hd]
      -- A definition gets the place after the patterns before it, whatever place it names.
      rfl
    rw [List.map_cons, defineLines, hline]
    cases hdefine : Patterns.define patterns d with
    | error e => exact .inr ⟨[], d, ds, patterns, e, rfl, rfl, hdefine, rfl⟩
    | ok next =>
      rcases ih hds next (number + 1) with ⟨all, hfold, hlines⟩ |
        ⟨before, d', after, last, e, rfl, hfold, herror, hlines⟩
      · exact .inl ⟨all, by rw [List.foldlM_cons, hdefine]; exact hfold, hlines⟩
      · have hnumber : number + 1 + before.length = number + (d :: before).length := by
          rw [List.length_cons]
          omega
        rw [hnumber] at hlines
        refine .inr ⟨d :: before, d', after, last, e, rfl, ?_, herror, hlines⟩
        rw [List.foldlM_cons, hdefine]
        exact hfold

end Definitions

namespace PatternSet

variable {ds : List Definition} {text : String}

/-- The text that holds one definition per line. -/
def definitionText (ds : List Definition) : String := Text.unlines (ds.map definitionLine)

theorem feed_notMem_definitionLine {d : Definition} (h : d.Writable) :
    '\n' ∉ (definitionLine d).toList := by
  have hname : '\n' ∉ d.name.toList := fun hmem => nomatch (h.plain_name _ hmem).1
  rw [Definitions.toList_definitionLine]
  split <;> simp [hname, h.feed_notMem]

/-- The lines of the text are those that are written, also if there is no line feed after the last. -/
theorem lines_definitionText (h : ∀ d ∈ ds, d.Writable)
    (htext : text = definitionText ds ∨ text ++ "\n" = definitionText ds) :
    Text.lines text.toList = ds.map fun d => (definitionLine d).toList := by
  have hlast {d : Definition} (hd : d ∈ ds) {c : Char} (hc : Text.isBlank c = true) :
      (definitionLine d).toList.getLast? ≠ some c := fun hlast =>
    Bool.false_ne_true ((Definitions.not_isBlank_of_mem_getLast? (h d hd) hlast).symm.trans hc)
  have hlines : Text.lines (definitionText ds).toList = ds.map fun d => (definitionLine d).toList := by
    rw [definitionText, Text.lines_unlines, List.map_map]
    · rfl
    · exact List.forall_mem_map.2 fun d hd => ⟨feed_notMem_definitionLine (h d hd), hlast hd rfl⟩
  rcases htext with rfl | htext
  · exact hlines
  rw [← hlines, ← htext]
  rcases List.eq_nil_or_concat' ds with rfl | ⟨before, d, rfl⟩
  · have hnil := congrArg String.toList htext
    simp [definitionText, Text.unlines] at hnil
  · have hfeed : text.toList ++ ['\n'] =
        (definitionText before).toList ++ (definitionLine d).toList ++ ['\n'] := by
      simpa [definitionText, Text.toList_unlines] using congrArg String.toList htext
    have hend := List.append_cancel_right hfeed
    have hd : d ∈ before ++ [d] := by simp
    have hne : (definitionLine d).toList ≠ [] := by simp [Definitions.toList_definitionLine]
    have hlast' {c : Char} (hc : Text.isBlank c = true) : text.toList.getLast? ≠ some c := by
      rw [hend, List.getLast?_append_of_ne_nil _ hne]
      exact hlast hd hc
    rw [String.toList_append]
    exact (Text.lines_append_feed (by simp [hend, hne]) (hlast' rfl) (hlast' rfl)).symm

/-- For every list of definitions that can be written on a line each: the text with one definition per
line compiles to the same set as the list, with the same patterns, places, flags and automata; or the list
fails at one of its definitions, and the text fails on the line of this definition with the same fault. -/
theorem parse_definitionText_agrees (h : ∀ d ∈ ds, d.Writable)
    (htext : text = definitionText ds ∨ text ++ "\n" = definitionText ds) :
    (∃ s, parse text = .ok s ∧ ofDefinitions ds = .ok s) ∨
    ∃ before d after e, ds = before ++ d :: after ∧ (∃ s, ofDefinitions before = .ok s) ∧
      ofDefinitions (before ++ [d]) = .error e ∧ ofDefinitions ds = .error e ∧
      parse text = .error { line := before.length + 1, fault := .pattern d.name e } := by
  unfold parse
  rw [lines_definitionText h htext]
  rcases Definitions.defineLines_cases h [] 0 with ⟨all, hfold, hlines⟩ |
    ⟨before, d, after, next, e, rfl, hbefore, hdefine, hlines⟩
  · refine .inl ⟨ofPatterns all, ?_, ?_⟩
    · rw [hlines]
      rfl
    · rw [ofDefinitions, hfold]
      rfl
  · have hfails (rest : List Definition) : ofDefinitions (before ++ d :: rest) = .error e := by
      rw [ofDefinitions, List.foldlM_append, hbefore]
      show Except.map ofPatterns (List.foldlM Patterns.define next (d :: rest)) = _
      rw [List.foldlM_cons, hdefine]
      rfl
    refine .inr ⟨before, d, after, e, rfl, ⟨ofPatterns next, ?_⟩, hfails [], hfails after, ?_⟩
    · rw [ofDefinitions, hbefore]
      rfl
    · rw [hlines, Nat.zero_add]
      rfl

/-- A name is defined twice, by expressions with an embedded pattern and an escaped `#`, and the last line
has no line feed. With another last line, the text fails there. -/
theorem parse_definitionText_agrees_repeated :
    let ds : List Definition := [{ name := "digit", regex := "[01]", internal := true },
      { name := "n", regex := ":digit: + \\#?", position := 7 }, { name := "n", regex := "\\\\:digit:" }]
    let bad : Definition := { name := "bad", regex := "(:n:" }
    (∀ d ∈ ds ++ [bad], d.Writable) ∧
    (":digit: [01]\nn: :digit: + \\#?\nn: \\\\:digit:" ++ "\n" = definitionText ds ∧
      ∃ s, parse ":digit: [01]\nn: :digit: + \\#?\nn: \\\\:digit:" = .ok s ∧ ofDefinitions ds = .ok s) ∧
    ∃ before d after e, ds ++ [bad] = before ++ d :: after ∧ (∃ s, ofDefinitions before = .ok s) ∧
      ofDefinitions (before ++ [d]) = .error e ∧ ofDefinitions (ds ++ [bad]) = .error e ∧
      parse (definitionText (ds ++ [bad])) =
        .error { line := before.length + 1, fault := .pattern d.name e } := by
  intro ds bad
  have hwritable : ∀ d ∈ ds ++ [bad], d.Writable := by decide
  have htext : ":digit: [01]\nn: :digit: + \\#?\nn: \\\\:digit:" ++ "\n" = definitionText ds := by decide
  refine ⟨hwritable, ⟨htext, ?_⟩, ?_⟩
  · rcases parse_definitionText_agrees (fun d hd => hwritable d (List.mem_append_left _ hd))
      (.inr htext) with h | ⟨before, d, after, e, -, -, -, herror, -⟩
    · exact h
    · have hok : (ofDefinitions ds).isOk = true := by decide +kernel
      rw [herror] at hok
      cases hok
  · rcases parse_definitionText_agrees hwritable (.inl rfl) with ⟨s, -, hs⟩ | h
    · have hfails : (ofDefinitions (ds ++ [bad])).isOk = false := by decide +kernel
      rw [hs] at hfails
      cases hfails
    · exact h

end PatternSet

end Predictive
