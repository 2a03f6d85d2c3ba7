import Predictive.Proofs.DefinitionLines
import Mathlib.Algebra.Group.Nat.Even
import Mathlib.Data.List.TakeWhile

/-!
# Faults of definition texts

Each line of a definition text is empty but for blanks and a comment, or defines a pattern from those
defined by the lines above it (`Definitions.LineDefines`), or has a fault (`Definitions.LineFails`): the
first kind of fault that applies to what is written on it (`Definitions.Applies`). A text compiles exactly
if no line has one, and otherwise it fails with that of the first line that has one
(`PatternSet.parse_outcome`).
-/

namespace Predictive

/-! ## Cutting a text into lines -/

namespace Text

variable {cs line rest : List Char} {ls : List (List Char)}

/-- The lines of a text: each ends in a line feed or in a carriage return and a line feed, and after the
last of these there is one more line if there is text. -/
inductive CutInto : List Char → List (List Char) → Prop
  | nil : CutInto [] []
  | last {line : List Char} : line ≠ [] → '\n' ∉ line → CutInto line [line]
  | feed {line rest : List Char} {ls : List (List Char)} : '\n' ∉ line → line.getLast? ≠ some '\r' →
      CutInto rest ls → CutInto (line ++ '\n' :: rest) (line :: ls)
  | returnFeed {line rest : List Char} {ls : List (List Char)} : '\n' ∉ line →
      CutInto rest ls → CutInto (line ++ '\r' :: '\n' :: rest) (line :: ls)

theorem linesFrom_of_notMem (hfeed : '\n' ∉ line) (read : List Char) (hne : line ≠ [] ∨ read ≠ []) :
    linesFrom read line = [read.reverse ++ line] := by
  induction line generalizing read with
  | nil => simp [linesFrom, hne.resolve_left (fun h => h rfl)]
  | cons c line ih =>
    rw [List.mem_cons, not_or] at hfeed
    rw [linesFrom, if_neg (Ne.symm hfeed.1), ih hfeed.2 _ (.inr (List.cons_ne_nil _ _))]
    simp

theorem CutInto.lines_eq (h : CutInto cs ls) : lines cs = ls := by
  induction h with
  | nil => rfl
  | last hne hfeed => exact linesFrom_of_notMem hfeed [] (.inl hne)
  | feed hfeed hreturn _ ih =>
    rw [← List.head?_reverse] at hreturn
    rw [lines, linesFrom_append hfeed, List.append_nil, dropReturn_eq_self hreturn, List.reverse_reverse,
      ← lines, ih]
  | @returnFeed line rest _ hfeed _ ih =>
    have hfeed' : '\n' ∉ line ++ ['\r'] := by simpa using hfeed
    have hcut := linesFrom_append hfeed' [] rest
    rw [List.append_assoc, List.singleton_append, List.append_nil, List.reverse_concat, dropReturn,
      List.reverse_reverse, ← lines, ← lines, ih] at hcut
    exact hcut

theorem exists_cutInto (cs : List Char) : ∃ ls, CutInto cs ls := by
  induction hlength : cs.length using Nat.strong_induction_on generalizing cs with
  | _ n ih =>
    subst hlength
    by_cases hmem : '\n' ∈ cs
    · obtain ⟨line, rest, rfl, hfeed⟩ := List.eq_append_cons_of_mem hmem
      have hlt : rest.length < (line ++ '\n' :: rest).length := by
        rw [List.length_append, List.length_cons]
        omega
      obtain ⟨ls, hls⟩ := ih rest.length hlt rest rfl
      by_cases hreturn : line.getLast? = some '\r'
      · obtain ⟨before, rfl⟩ := List.getLast?_eq_some_iff.1 hreturn
        refine ⟨before :: ls, ?_⟩
        rw [List.append_assoc]
        exact .returnFeed (fun h => hfeed (List.mem_append_left _ h)) hls
      · exact ⟨line :: ls, .feed hfeed hreturn hls⟩
    · rcases eq_or_ne cs [] with rfl | hne
      · exact ⟨[], .nil⟩
      · exact ⟨[cs], .last hne hmem⟩

theorem cutInto_iff : CutInto cs ls ↔ lines cs = ls := by
  refine ⟨CutInto.lines_eq, ?_⟩
  rintro rfl
  obtain ⟨ls, hls⟩ := exists_cutInto cs
  exact hls.lines_eq ▸ hls

theorem mem_trim {c : Char} (hc : isBlank c = false) (h : c ∈ cs) : c ∈ trim cs := by
  have hdrop {cs : List Char} (h : c ∈ cs) : c ∈ cs.dropWhile isBlank := by
    rw [← List.takeWhile_append_dropWhile (p := isBlank) (l := cs), List.mem_append] at h
    refine h.resolve_left fun htake => ?_
    have hblank := List.mem_takeWhile_imp htake
    simp [hc] at hblank
  exact List.mem_reverse.2 (hdrop (List.mem_reverse.2 (hdrop h)))

end Text

namespace Definitions

variable {patterns next next' : List Pattern} {line content rest cs before : List Char} {c : Char}
  {d d' : Definition} {fault other : DefinitionFault}

/-! ## The content of a line -/

/-- The number of backslashes at the end of a text. -/
def backslashes (cs : List Char) : Nat := (cs.reverse.takeWhile (· = '\\')).length

/-- After `before` stands a `#`, directly preceded by an even number of backslashes. -/
def CommentAfter (cs before : List Char) : Prop := before ++ ['#'] <+: cs ∧ Even (backslashes before)

/-- What is left of a text that is cut where its first comment starts. -/
inductive Uncommented (cs : List Char) : List Char → Prop
  | whole : (∀ before, ¬ CommentAfter cs before) → Uncommented cs cs
  | cut {before : List Char} : CommentAfter cs before →
      (∀ earlier, CommentAfter cs earlier → before.length ≤ earlier.length) → Uncommented cs before

/-- What a line holds, without its comment and the blanks around it. -/
def Holds (line content : List Char) : Prop :=
  ∃ rest, Uncommented (Text.trim line) rest ∧ Text.trim rest = content

theorem backslashes_concat (cs : List Char) (c : Char) :
    backslashes (cs ++ [c]) = if c = '\\' then backslashes cs + 1 else 0 := by
  rw [backslashes, List.reverse_concat, List.takeWhile_cons]
  split <;> simp_all [backslashes]

theorem not_commentAfter_nil (before : List Char) : ¬ CommentAfter [] before := by
  rintro ⟨hbefore, -⟩
  simpa using hbefore.length_le

theorem commentAfter_concat_iff : CommentAfter (cs ++ [c]) before ↔
    before = cs ∧ c = '#' ∧ Even (backslashes cs) ∨ CommentAfter cs before := by
  have hconcat : before ++ ['#'] = cs ++ [c] ↔ before = cs ∧ '#' = c := by simp
  rw [CommentAfter, CommentAfter, List.prefix_concat_iff, hconcat, or_and_right]
  constructor
  · rintro (⟨⟨rfl, rfl⟩, heven⟩ | h)
    · exact .inl ⟨rfl, rfl, heven⟩
    · exact .inr h
  · rintro (⟨rfl, rfl, heven⟩ | h)
    · exact .inl ⟨⟨rfl, rfl⟩, heven⟩
    · exact .inr h

/-- The text is cut at its first comment, if none starts in what was read of it and `escaped` tells
whether the next character is escaped. -/
theorem uncommented_cutComment {escaped : Bool} {read : List Char}
    (hread : ∀ before, ¬ CommentAfter read before) (hescaped : escaped = false ↔ Even (backslashes read))
    (cs : List Char) : Uncommented (read ++ cs) (read ++ cutComment escaped cs) := by
  induction cs generalizing escaped read with
  | nil =>
    rw [cutComment, List.append_nil]
    exact .whole hread
  | cons c cs ih =>
    by_cases hc : c = '#' ∧ Even (backslashes read)
    · obtain ⟨rfl, heven⟩ := hc
      rw [cutComment, if_pos (by simp [hescaped.2 heven]), List.append_nil]
      refine .cut ⟨⟨cs, by simp⟩, heven⟩ fun earlier hearlier => ?_
      by_contra hlt
      -- A comment that starts earlier starts in what was read.
      refine hread earlier ⟨?_, hearlier.2⟩
      refine List.prefix_of_prefix_length_le hearlier.1 (List.prefix_append read _) ?_
      rw [List.length_append, List.length_singleton]
      omega
    · have hcut : cutComment escaped (c :: cs) =
          c :: cutComment (if c = '\\' then !escaped else false) cs := by
        rw [cutComment, if_neg (by simpa [← hescaped] using hc)]
        split <;> rfl
      have hnext : ∀ before, ¬ CommentAfter (read ++ [c]) before := fun before h =>
        (commentAfter_concat_iff.1 h).elim (fun h => hc h.2) (hread before)
      rw [hcut, List.append_cons read c cs, List.append_cons read c (cutComment _ cs)]
      refine ih hnext ?_
      rw [backslashes_concat]
      split
      · rw [Nat.even_add_one, ← hescaped, Bool.not_eq_false', Bool.not_eq_false]
      · simp

theorem Uncommented.unique {rest' : List Char} (h : Uncommented cs rest) (h' : Uncommented cs rest') :
    rest = rest' := by
  cases h with
  | whole hnone =>
    cases h' with
    | whole => rfl
    | cut hcomment => exact absurd hcomment (hnone _)
  | cut hcomment hfirst =>
    cases h' with
    | whole hnone => exact absurd hcomment (hnone _)
    | cut hcomment' hfirst' =>
      have hle := hfirst _ hcomment'
      have hle' := hfirst' _ hcomment
      have hbefore {before : List Char} (h : CommentAfter cs before) : before <+: cs :=
        (List.prefix_append before _).trans h.1
      have hshorter := List.prefix_of_prefix_length_le (hbefore hcomment) (hbefore hcomment') hle
      exact hshorter.eq_of_length_le hle'

theorem uncommented_iff : Uncommented cs rest ↔ cutComment false cs = rest := by
  have hcut : Uncommented cs (cutComment false cs) :=
    uncommented_cutComment not_commentAfter_nil (by simp [backslashes]) cs
  constructor
  · exact fun h => hcut.unique h
  · rintro rfl
    exact hcut

theorem holds_iff : Holds line content ↔ Definitions.content line = content := by
  simp only [Holds, uncommented_iff, exists_eq_left', Definitions.content]

/-! ## What is written on a line -/

/-- One of the letters that names are made of. -/
def IsLetter (c : Char) : Prop := 'a' ≤ c ∧ c ≤ 'z' ∨ 'A' ≤ c ∧ c ≤ 'Z'

/-- A letter followed by letters, digits and underscores. -/
def IsName (cs : List Char) : Prop :=
  ∃ c rest, cs = c :: rest ∧ IsLetter c ∧ ∀ x ∈ rest, IsLetter x ∨ '0' ≤ x ∧ x ≤ '9' ∨ x = '_'

theorem IsName.ne_nil (h : IsName cs) : cs ≠ [] := by
  obtain ⟨c, rest, rfl, -⟩ := h
  exact List.cons_ne_nil c rest

theorem isAlpha_iff : c.isAlpha = true ↔ IsLetter c := by
  delta Char.isAlpha Char.isUpper Char.isLower
  simp only [IsLetter, Bool.or_eq_true, Bool.and_eq_true, decide_eq_true_eq, ge_iff_le, Char.le_def]
  exact or_comm

theorem isDigit_iff : c.isDigit = true ↔ '0' ≤ c ∧ c ≤ '9' := by
  simp only [Char.isDigit, Bool.and_eq_true, decide_eq_true_eq, ge_iff_le, Char.le_def]

theorem isName_iff : isName cs = true ↔ IsName cs := by
  cases cs with
  | nil => simp [isName, IsName]
  | cons c cs =>
    simp [isName, IsName, Char.isAlphanum, isAlpha_iff, isDigit_iff, or_assoc, and_assoc]

/-- The mark of an internal pattern. -/
def mark (internal : Bool) : List Char := if internal then [':'] else []

/-- The definition of which these are the name and the regular expression, with blanks around them. -/
def written (internal : Bool) (name regex : List Char) : Definition :=
  { name := String.ofList (Text.trim name), regex := String.ofList (Text.trim regex), internal }

/-- What a line adds to the patterns defined by the lines above it: nothing, or the pattern that is written
on it after an optional mark, as a name, a `:` and a regular expression that compiles against them. -/
inductive LineDefines (patterns : List Pattern) (line : List Char) : List Pattern → Prop
  | blank : Holds line [] → LineDefines patterns line patterns
  | definition {internal : Bool} {name regex : List Char} {p : Pattern} :
      Holds line (mark internal ++ name ++ ':' :: regex) →
      IsName (Text.trim name) → Text.trim name ≠ eofName.toList → Text.trim regex ≠ [] →
      Patterns.compileNext patterns (written internal name regex) = .ok p →
      LineDefines patterns line (Patterns.add patterns p)

/-- A content that has a `:` after its name. If its first character is a `:`, this is the mark of an
internal pattern; the name goes up to the next `:`. -/
inductive Spells : List Char → Definition → Prop
  | intro (internal : Bool) (name regex : List Char) : ':' ∉ name →
      (internal = false → name ≠ []) →
      Spells (mark internal ++ name ++ ':' :: regex) (written internal name regex)

/-- The fault applies to a content, whether or not others do. -/
def Applies (patterns : List Pattern) (content : List Char) : DefinitionFault → Prop
  -- A `:` at the start is the mark and separates nothing.
  | .missingSeparator => ':' ∉ content.tail
  | .missingName => ∃ d, Spells content d ∧ d.name = ""
  | .invalidName name => ∃ d, Spells content d ∧ d.name = name ∧ ¬ IsName name.toList
  | .reservedName name => ∃ d, Spells content d ∧ d.name = name ∧ name = eofName
  | .missingRegex name => ∃ d, Spells content d ∧ d.name = name ∧ d.regex = ""
  | .pattern name e => ∃ d, Spells content d ∧ d.name = name ∧ Patterns.compileNext patterns d = .error e

/-- The place of the kind of a fault in the order in which the kinds are looked for. -/
def rank : DefinitionFault → Nat
  | .missingSeparator => 0
  | .missingName => 1
  | .invalidName _ => 2
  | .reservedName _ => 3
  | .missingRegex _ => 4
  | .pattern _ _ => 5

/-- The first kind of fault that applies to a content. -/
structure First (patterns : List Pattern) (content : List Char) (fault : DefinitionFault) : Prop where
  applies : Applies patterns content fault
  rank_le : ∀ other, Applies patterns content other → rank fault ≤ rank other

/-- The fault of a line, after lines that define these patterns. -/
def LineFails (patterns : List Pattern) (line : List Char) (fault : DefinitionFault) : Prop :=
  ∃ content, Holds line content ∧ content ≠ [] ∧ First patterns content fault

/-- A content with a separator starts with a colon exactly if it has the mark. -/
theorem head?_eq_colon_iff {internal : Bool} {name : List Char} (hcolon : ':' ∉ name)
    (hname : internal = false → name ≠ []) (regex : List Char) :
    (mark internal ++ name ++ ':' :: regex).head? = some ':' ↔ internal = true := by
  cases internal with
  | true => simp [mark]
  | false =>
    obtain ⟨c, rest, rfl⟩ := List.exists_cons_of_ne_nil (hname rfl)
    rw [List.mem_cons, not_or] at hcolon
    simp [mark, Ne.symm hcolon.1]

theorem Spells.mem_tail (h : Spells content d) : ':' ∈ content.tail := by
  cases h with
  | intro internal name regex _ hname =>
    cases internal with
    | true => simp [mark]
    | false =>
      obtain ⟨c, rest, rfl⟩ := List.exists_cons_of_ne_nil (hname rfl)
      simp [mark]

theorem Spells.unique (h : Spells content d) (h' : Spells content d') : d = d' := by
  cases h with
  | intro internal name regex hcolon hname =>
    generalize hcontent : mark internal ++ name ++ ':' :: regex = content at h'
    cases h' with
    | intro internal' name' regex' hcolon' hname' =>
      obtain rfl : internal = internal' := by
        rw [Bool.eq_iff_iff, ← head?_eq_colon_iff hcolon hname regex, hcontent,
          head?_eq_colon_iff hcolon' hname']
      rw [List.append_assoc, List.append_assoc, List.append_cancel_left_eq] at hcontent
      have hspan := congrArg (List.span (· ≠ ':')) hcontent
      rw [span_of_notMem hcolon, span_of_notMem hcolon'] at hspan
      cases hspan
      rfl

theorem exists_spells (h : ':' ∈ content.tail) : ∃ d, Spells content d := by
  cases content with
  | nil => cases h
  | cons c cs =>
    rw [List.tail_cons] at h
    obtain ⟨name, regex, rfl, hname⟩ := List.eq_append_cons_of_mem h
    by_cases hc : c = ':'
    · rw [hc]
      exact ⟨_, .intro true name regex hname nofun⟩
    · refine ⟨_, .intro false (c :: name) regex ?_ fun _ => List.cons_ne_nil _ _⟩
      rw [List.mem_cons, not_or]
      exact ⟨Ne.symm hc, hname⟩

/-- A name has no colon, so a content with a name before a colon is read in no other way. -/
theorem spells_of_isName {internal : Bool} {name : List Char} (hname : IsName (Text.trim name))
    (regex : List Char) : Spells (mark internal ++ name ++ ':' :: regex) (written internal name regex) := by
  refine .intro internal name regex (fun hmem => ?_) ?_
  · obtain ⟨c, rest, hname, hfirst, hrest⟩ := hname
    have hcolon := Text.mem_trim (by decide) hmem
    rw [hname, List.mem_cons] at hcolon
    rcases hcolon with rfl | hcolon
    · exact absurd hfirst (by unfold IsLetter; decide)
    · exact absurd (hrest _ hcolon) (by unfold IsLetter; decide)
  · rintro - rfl
    exact hname.ne_nil rfl

/-- Up to the first colon is the name, and after it the regular expression. -/
theorem parse_of_spells (h : Spells content d) : parse content =
    if d.name = "" then .error .missingName
    else if isName d.name.toList = false then .error (.invalidName d.name)
    else if d.name = eofName then .error (.reservedName d.name)
    else if d.regex = "" then .error (.missingRegex d.name)
    else .ok d := by
  cases h with
  | intro internal name regex hcolon hname =>
    have hempty {cs : List Char} : String.ofList cs = "" ↔ cs.isEmpty = true := by simp
    unfold parse
    split
    next internal' line hline =>
      obtain ⟨rfl, rfl⟩ : internal' = internal ∧ line = name ++ ':' :: regex := by
        cases internal with
        | true =>
          cases hline
          exact ⟨rfl, rfl⟩
        | false =>
          obtain ⟨c, rest, rfl⟩ := List.exists_cons_of_ne_nil (hname rfl)
          rw [List.mem_cons, not_or] at hcolon
          split at hline
          · next heq => exact absurd (List.head_eq_of_cons_eq heq).symm hcolon.1
          · cases hline
            exact ⟨rfl, rfl⟩
      rw [span_of_notMem hcolon]
      simp only [written, hempty, String.toList_ofList, Bool.not_eq_true']
      rfl

theorem parse_of_notMem (h : ':' ∉ content.tail) : parse content = .error .missingSeparator := by
  unfold parse
  split
  next internal line hline =>
    have hmem : ':' ∉ line := by
      split at hline
      · cases hline
        exact h
      · next hmark =>
        cases hline
        intro hmem
        cases content with
        | nil => cases hmem
        | cons c cs =>
          rcases List.mem_cons.1 hmem with rfl | hmem
          · exact hmark cs rfl
          · exact h hmem
    have hall : ∀ c ∈ line, decide (c ≠ ':') = true := fun c hc =>
      decide_eq_true fun h => hmem (h ▸ hc)
    rw [List.span_eq_takeWhile_dropWhile, List.dropWhile_eq_nil_iff.2 hall]
    rfl

/-! ## Faults -/

theorem Spells.exists_iff (h : Spells content d) {P : Definition → Prop} :
    (∃ d', Spells content d' ∧ P d') ↔ P d := by
  constructor
  · rintro ⟨d', hd', hP⟩
    rwa [h.unique hd']
  · exact fun hP => ⟨d, h, hP⟩

/-- No kind comes after that of patterns that do not compile. -/
theorem rank_le (fault : DefinitionFault) : rank fault ≤ 5 := by
  cases fault <;> simp [rank]

/-- The checks for the kinds of faults before the `k`th find nothing. -/
structure Passes (k : Nat) (d : Definition) : Prop where
  name_nonempty : 1 < k → d.name ≠ ""
  isName : 2 < k → IsName d.name.toList
  name_ne : 3 < k → d.name ≠ eofName
  regex_ne : 4 < k → d.regex ≠ ""

/-- No kind applies for which a check finds nothing. -/
theorem Passes.le_rank {k : Nat} (h : Passes k d) (hk : k ≤ 5) (hd : Spells content d)
    (happlies : Applies patterns content fault) : k ≤ rank fault := by
  by_contra hlt
  rw [not_le] at hlt
  cases fault with
  | missingSeparator => exact happlies hd.mem_tail
  | missingName => exact h.name_nonempty hlt (hd.exists_iff.1 happlies)
  | invalidName name =>
    obtain ⟨rfl, hinvalid⟩ := hd.exists_iff.1 happlies
    exact hinvalid (h.isName hlt)
  | reservedName name =>
    obtain ⟨rfl, heof⟩ := hd.exists_iff.1 happlies
    exact h.name_ne hlt heof
  | missingRegex name =>
    obtain ⟨-, hmissing⟩ := hd.exists_iff.1 happlies
    exact h.regex_ne hlt hmissing
  | pattern name e => exact absurd hlt (Nat.not_lt.2 hk)

theorem Passes.first {k : Nat} (h : Passes k d) (hd : Spells content d) (hk : rank fault = k)
    (happlies : Applies patterns content fault) : First patterns content fault where
  applies := happlies
  rank_le _ hother := hk.trans_le (h.le_rank (hk ▸ rank_le fault) hd hother)

/-- What is written on a line has nothing wrong, but for what its expression compiles to. -/
structure Sound (content : List Char) (d : Definition) : Prop where
  spells : Spells content d
  passes : Passes 5 d

/-- Such a line defines its pattern, if this compiles. -/
theorem Sound.lineDefines (h : Sound content d) (hline : Holds line content) {p : Pattern}
    (hp : Patterns.compileNext patterns d = .ok p) :
    LineDefines patterns line (Patterns.add patterns p) := by
  obtain ⟨hspells, hpasses⟩ := h
  cases hspells with
  | intro internal name regex _ _ =>
    refine .definition hline ?_ (fun heof => hpasses.name_ne (by decide) ?_)
      (fun hnil => hpasses.regex_ne (by decide) ?_) hp
    · have hname := hpasses.isName (by decide)
      rwa [written, String.toList_ofList] at hname
    · rw [written, heof]
      rfl
    · rw [written, hnil]

/-- It has no fault then. -/
theorem Sound.not_applies (h : Sound content d) {p : Pattern}
    (hp : Patterns.compileNext patterns d = .ok p) : ¬ Applies patterns content fault := by
  intro happlies
  have hlast := h.passes.le_rank le_rfl h.spells happlies
  cases fault with
  | pattern name e =>
    obtain ⟨-, he⟩ := h.spells.exists_iff.1 happlies
    cases he.symm.trans hp
  | _ => simp [rank] at hlast

/-- The checks of a content are made in the order of the kinds of faults. -/
theorem parse_guarantees (patterns : List Pattern) (content : List Char) :
    Guarantees (First patterns content) (Sound content) (parse content) := by
  by_cases hmem : ':' ∈ content.tail
  · obtain ⟨d, hd⟩ := exists_spells hmem
    rw [parse_of_spells hd]
    split_ifs with hempty hname hreserved hregex
    · have hpasses : Passes 1 d := ⟨nofun, nofun, nofun, nofun⟩
      exact .error (hpasses.first hd rfl (hd.exists_iff.2 hempty))
    · have hinvalid : ¬ IsName d.name.toList := by simp [← isName_iff, hname]
      have hpasses : Passes 2 d := ⟨fun _ => hempty, nofun, nofun, nofun⟩
      exact .error (hpasses.first hd rfl (hd.exists_iff.2 ⟨rfl, hinvalid⟩))
    all_goals have hvalid : IsName d.name.toList := isName_iff.1 (Bool.eq_true_of_not_eq_false hname)
    · have hpasses : Passes 3 d := ⟨fun _ => hempty, fun _ => hvalid, nofun, nofun⟩
      exact .error (hpasses.first hd rfl (hd.exists_iff.2 ⟨rfl, hreserved⟩))
    · have hpasses : Passes 4 d := ⟨fun _ => hempty, fun _ => hvalid, fun _ => hreserved, nofun⟩
      exact .error (hpasses.first hd rfl (hd.exists_iff.2 ⟨rfl, hregex⟩))
    · exact .ok ⟨hd, fun _ => hempty, fun _ => hvalid, fun _ => hreserved, fun _ => hregex⟩
  · rw [parse_of_notMem hmem]
    exact .error ⟨hmem, fun _ _ => Nat.zero_le _⟩

/-- Of one kind, one fault applies at most. -/
theorem Applies.unique (h : Applies patterns content fault) (h' : Applies patterns content other)
    (hrank : rank fault = rank other) : fault = other := by
  cases fault <;> cases other <;> cases hrank
  case missingSeparator | missingName => rfl
  case invalidName | reservedName | missingRegex =>
    obtain ⟨d, hd, rfl, -⟩ := h
    obtain ⟨d', hd', rfl, -⟩ := h'
    rw [hd.unique hd']
  case pattern =>
    obtain ⟨d, hd, rfl, he⟩ := h
    obtain ⟨rfl, he'⟩ := hd.exists_iff.1 h'
    cases he.symm.trans he'
    rfl

theorem First.unique (h : First patterns content fault) (h' : First patterns content other) :
    fault = other :=
  h.applies.unique h'.applies (le_antisymm (h.rank_le _ h'.applies) (h'.rank_le _ h.applies))

/-! ## One line -/

/-- A line adds its pattern, or has its fault. -/
theorem defineLine_guarantees (patterns : List Pattern) (line : List Char) :
    Guarantees (LineFails patterns line) (LineDefines patterns line) (defineLine patterns line) := by
  have hholds : Holds line (content line) := holds_iff.2 rfl
  unfold defineLine parseLine
  split
  · next hcontent => exact .ok (.blank (hcontent ▸ hholds))
  · next c cs hcontent =>
    rw [hcontent] at hholds
    have hfails {fault : DefinitionFault} (h : First patterns (c :: cs) fault) :
        LineFails patterns line fault := ⟨c :: cs, hholds, List.cons_ne_nil c cs, h⟩
    have hparsed := parse_guarantees patterns (c :: cs)
    cases hparse : parse (c :: cs) with
    | error fault => exact .error (hfails (hparsed.of_error hparse))
    | ok d =>
      have hd := hparsed.of_ok hparse
      show Guarantees _ _ (((Patterns.compileNext patterns d).map _).mapError _)
      cases hcompile : Patterns.compileNext patterns d with
      | error e =>
        have happlies : Applies patterns (c :: cs) (.pattern d.name e) :=
          hd.spells.exists_iff.2 ⟨rfl, hcompile⟩
        exact .error (hfails (hd.passes.first hd.spells rfl happlies))
      | ok p => exact .ok (hd.lineDefines hholds hcompile)

theorem Holds.unique {content' : List Char} (h : Holds line content) (h' : Holds line content') :
    content = content' :=
  (holds_iff.1 h).symm.trans (holds_iff.1 h')

theorem sound_of_isName {internal : Bool} {name regex : List Char} (hname : IsName (Text.trim name))
    (hne : Text.trim name ≠ eofName.toList) (hregex : Text.trim regex ≠ []) :
    Sound (mark internal ++ name ++ ':' :: regex) (written internal name regex) := by
  have hchars : (written internal name regex).name.toList = Text.trim name := String.toList_ofList
  refine ⟨spells_of_isName hname regex, fun _ h => ?_, fun _ => ?_, fun _ h => hne ?_, fun _ h => hregex ?_⟩
  · rw [← hchars, h] at hname
    exact hname.ne_nil rfl
  · rwa [hchars]
  · rw [← hchars, h]
  · rw [written, String.ofList_eq_empty_iff] at h
    exact h

theorem LineDefines.unique (h : LineDefines patterns line next) (h' : LineDefines patterns line next') :
    next = next' := by
  cases h with
  | blank hblank =>
    cases h' with
    | blank => rfl
    | definition hline =>
      have hnil := hblank.unique hline
      simp at hnil
  | @definition internal name regex p hline hname hne hregex hp =>
    cases h' with
    | blank hblank =>
      have hnil := hblank.unique hline
      simp at hnil
    | @definition internal' name' regex' p' hline' hname' hne' hregex' hp' =>
      have hspells := (hline.unique hline') ▸ spells_of_isName hname regex
      rw [hspells.unique (spells_of_isName hname' regex')] at hp
      cases hp.symm.trans hp'
      rfl

theorem LineDefines.not_lineFails (h : LineDefines patterns line next) :
    ¬ LineFails patterns line fault := by
  rintro ⟨content, hcontent, hne, hfirst⟩
  cases h with
  | blank hblank => exact hne (hcontent.unique hblank)
  | definition hline hname hne hregex hp =>
    rw [hcontent.unique hline] at hfirst
    exact (sound_of_isName hname hne hregex).not_applies hp hfirst.applies

theorem LineFails.unique (h : LineFails patterns line fault) (h' : LineFails patterns line other) :
    fault = other := by
  obtain ⟨content, hcontent, -, hfirst⟩ := h
  obtain ⟨content', hcontent', -, hfirst'⟩ := h'
  rw [hcontent.unique hcontent'] at hfirst
  exact hfirst.unique hfirst'

theorem defineLine_eq_ok_iff : defineLine patterns line = .ok next ↔ LineDefines patterns line next := by
  have hline := defineLine_guarantees patterns line
  refine ⟨hline.of_ok, fun h => ?_⟩
  cases hdefine : defineLine patterns line with
  | error fault => exact absurd (hline.of_error hdefine) h.not_lineFails
  | ok next' => rw [h.unique (hline.of_ok hdefine)]

theorem defineLine_eq_error_iff :
    defineLine patterns line = .error fault ↔ LineFails patterns line fault := by
  have hline := defineLine_guarantees patterns line
  refine ⟨hline.of_error, fun h => ?_⟩
  cases hdefine : defineLine patterns line with
  | error fault' => rw [h.unique (hline.of_error hdefine)]
  | ok next => exact absurd h (hline.of_ok hdefine).not_lineFails

/-! ## Line after line -/

variable {lines : List (List Char)} {number : Nat} {e : DefinitionError}

/-- The patterns that lines define one after another, each from those defined by the lines above it. -/
inductive LinesDefine : List (List Char) → List Pattern → Prop
  | nil : LinesDefine [] []
  | concat {lines : List (List Char)} {line : List Char} {patterns next : List Pattern} :
      LinesDefine lines patterns → LineDefines patterns line next → LinesDefine (lines ++ [line]) next

theorem linesDefine_iff : LinesDefine lines patterns ↔ lines.foldlM defineLine [] = .ok patterns := by
  constructor
  · intro h
    induction h with
    | nil => rfl
    | concat _ hline ih =>
      rw [List.foldlM_append, bind_eq_ok_iff]
      exact ⟨_, ih, bind_eq_ok_iff.2 ⟨_, defineLine_eq_ok_iff.2 hline, rfl⟩⟩
  · intro h
    induction lines using List.reverseRecOn generalizing patterns with
    | nil =>
      cases h
      exact .nil
    | append_singleton lines line ih =>
      rw [List.foldlM_append, bind_eq_ok_iff] at h
      obtain ⟨before, hbefore, h⟩ := h
      obtain ⟨next, hline, h⟩ := bind_eq_ok_iff.1 h
      cases h
      exact .concat (ih hbefore) (defineLine_eq_ok_iff.1 hline)

theorem defineLines_eq_ok_iff :
    defineLines patterns number lines = .ok next ↔ lines.foldlM defineLine patterns = .ok next := by
  induction lines generalizing patterns number with
  | nil =>
    rw [defineLines, List.foldlM_nil, pure_eq_ok_iff, Except.ok.injEq]
  | cons line lines ih =>
    rw [defineLines, List.foldlM_cons, bind_eq_ok_iff, bind_eq_ok_iff]
    simp only [mapError_eq_ok_iff, ih]

/-- Lines fail where one of them does, after those above it have added their patterns. -/
theorem defineLines_eq_error_iff : defineLines patterns number lines = .error e ↔
    ∃ before line after next, lines = before ++ line :: after ∧
      before.foldlM defineLine patterns = .ok next ∧ defineLine next line = .error e.fault ∧
      e.line = number + before.length + 1 := by
  induction lines generalizing patterns number with
  | nil => simp [defineLines]
  | cons line lines ih =>
    simp only [defineLines, bind_eq_error_iff, mapError_eq_error_iff, mapError_eq_ok_iff, ih]
    constructor
    · rintro (⟨fault, hfault, rfl⟩ |
        ⟨next, hnext, before, line', after, last, rfl, hbefore, hfault, hnumber⟩)
      · exact ⟨[], line, lines, patterns, rfl, rfl, hfault, rfl⟩
      · refine ⟨line :: before, line', after, last, rfl, ?_, hfault, ?_⟩
        · rw [List.foldlM_cons]
          exact bind_eq_ok_iff.2 ⟨next, hnext, hbefore⟩
        · rw [hnumber, List.length_cons]
          omega
    · rintro ⟨before, line', after, last, hlines, hbefore, hfault, hnumber⟩
      cases before with
      | nil =>
        cases hlines
        cases hbefore
        cases e
        cases hnumber
        exact .inl ⟨_, hfault, rfl⟩
      | cons first before =>
        cases hlines
        rw [List.foldlM_cons, bind_eq_ok_iff] at hbefore
        obtain ⟨next, hnext, hbefore⟩ := hbefore
        refine .inr ⟨next, hnext, before, line', after, last, rfl, hbefore, hfault, ?_⟩
        rw [hnumber, List.length_cons]
        omega

end Definitions

/-- A text compiles exactly if each of its lines is empty but for blanks and a comment or defines a pattern.
Otherwise the error is that of the first line that does neither, with its number, and is of the first kind
that applies to it. -/
theorem PatternSet.parse_outcome (text : String) :
    (∀ s, parse text = .ok s ↔ ∃ lines patterns, Text.CutInto text.toList lines ∧
      Definitions.LinesDefine lines patterns ∧ ofPatterns patterns = s) ∧
    ∀ e, parse text = .error e ↔ ∃ before line after patterns,
      Text.CutInto text.toList (before ++ line :: after) ∧ Definitions.LinesDefine before patterns ∧
      Definitions.LineFails patterns line e.fault ∧ e.line = before.length + 1 := by
  constructor
  · intro s
    simp only [parse, map_eq_ok_iff, Definitions.defineLines_eq_ok_iff, Definitions.linesDefine_iff,
      Text.cutInto_iff, exists_and_left, exists_eq_left']
  · intro e
    simp only [parse, map_eq_error_iff, Definitions.defineLines_eq_error_iff, Definitions.linesDefine_iff,
      Definitions.defineLine_eq_error_iff, Text.cutInto_iff, Nat.zero_add]

end Predictive
