import Predictive.Regex.Reading
import Predictive.Proofs.Juxtaposition
import Predictive.Proofs.SortedSet

/-!
# The grammar of regular expressions

`Written` says which texts, without spaces and tabs, write which expression: alternatives of
sequences of repeated atoms. Reading accepts exactly these texts, and gives the expression that they
write (`read_eq_ok_iff`).
-/

namespace Predictive.Regex

open Precedence (Interpretation Item Meaning)

variable {known : String → Bool}

/-! ## The grammar -/

/-- `\` and `c` stand for `d`. -/
def Escapes (c d : Char) : Prop :=
  (c, d) ∈ [('s', ' '), ('n', '\n'), ('r', '\r'), ('t', '\t')] ∨
    d = c ∧ c ∈ ['.', '\\', '?', '*', ':', '(', ')', '+', '^', '|', '[', ']', '#']

/-- The members of a class, as they are written one after the other. -/
inductive Members : List Char → List Label → Prop
  | nil : Members [] []
  | any {s : List Char} {ms : List Label} : Members s ms → Members ('.' :: s) (.any :: ms)
  | escape {c d : Char} {s : List Char} {ms : List Label} : Escapes c d → Members s ms →
      Members ('\\' :: c :: s) (.char d :: ms)
  | char {c : Char} {s : List Char} {ms : List Label} :
      c ∉ ['?', '*', ':', '(', ')', '+', '^', '|', '[', ']', '.', '\\'] → Members s ms →
      Members (c :: s) (.char c :: ms)

/-- The characters with codes from 9 to 126 that are not among the members of a class. -/
def others (ms : List Label) : List Label :=
  ((List.range' 9 118).map fun code => .char (Char.ofNat code)).filter (· ∉ ms)

/-- An operand other than a group, as it is written. -/
inductive Atom (known : String → Bool) : List Char → Regex → Prop
  | char {c : Char} : c ∉ ['*', '+', '?', '|', '(', ')', '[', ']', '^', ':', '.', '\\'] →
      Atom known [c] (.oneOf [.char c])
  | any : Atom known ['.'] (.oneOf [.any])
  | escape {c d : Char} : Escapes c d → Atom known ['\\', c] (.oneOf [.char d])
  | embed {name : List Char} : ':' ∉ name → known (String.ofList name) = true →
      Atom known (':' :: name ++ [':']) (.embed (String.ofList name))
  | members {s : List Char} {ms : List Label} : Members s ms → ms ≠ [] →
      Atom known ('[' :: s ++ [']']) (.oneOf (SortedSet.ofList ms).toList)
  | others {s : List Char} {ms : List Label} : Members s ms → ms ≠ [] → .any ∉ ms →
      others ms ≠ [] → Atom known ('[' :: '^' :: s ++ [']']) (.oneOf (others ms))

/-- The parts of an expression, from loosest to tightest. -/
inductive Level
  | alternation
  | sequence
  | repetition
  | atom

/-- The text writes the expression at a level of the grammar. -/
inductive Written (known : String → Bool) : Level → List Char → Regex → Prop
  | alt {s t : List Char} {a b : Regex} : Written known .alternation s a →
      Written known .sequence t b → Written known .alternation (s ++ '|' :: t) (.alt a b)
  | sequence {s : List Char} {a : Regex} : Written known .sequence s a →
      Written known .alternation s a
  | concat {s t : List Char} {a b : Regex} : Written known .sequence s a →
      Written known .repetition t b → Written known .sequence (s ++ t) (.concat a b)
  | repetition {s : List Char} {a : Regex} : Written known .repetition s a →
      Written known .sequence s a
  | star {s : List Char} {a : Regex} : Written known .repetition s a →
      Written known .repetition (s ++ ['*']) (.star a)
  | plus {s : List Char} {a : Regex} : Written known .repetition s a →
      Written known .repetition (s ++ ['+']) (.plus a)
  | optional {s : List Char} {a : Regex} : Written known .repetition s a →
      Written known .repetition (s ++ ['?']) (.optional a)
  | operand {s : List Char} {a : Regex} : Written known .atom s a → Written known .repetition s a
  | group {s : List Char} {a : Regex} : Written known .alternation s a →
      Written known .atom ('(' :: s ++ [')']) a
  | atom {s : List Char} {a : Regex} : Atom known s a → Written known .atom s a

/-! ## Reading from the middle -/

/-- Reads the rest of a text, where the reader stands in it and what is read so far. -/
def readFrom (known : String → Bool) (r : Reader) (p : Partial) (cs : List Char) :
    Except PatternError Regex := do
  let p ← (r.tokens cs).1.foldlM (Partial.feed known) p
  match (r.tokens cs).2 with
  | some e => throw e
  | none => p.finish

theorem readFrom_cons {r next : Reader} {p : Partial} {c : Char} {cs : List Char} {t : Option Token}
    (h : r.read c = .ok (t, next)) :
    readFrom known r p (c :: cs) =
      t.toList.foldlM (Partial.feed known) p >>= fun p => readFrom known next p cs := by
  have htokens : r.tokens (c :: cs) = (t.toList ++ (next.tokens cs).1, (next.tokens cs).2) := by
    rw [Reader.tokens, h]
  rw [readFrom, htokens, List.foldlM_append]
  exact bind_assoc ..

theorem readFrom_cons_none {r : Reader} (next : Reader) {p : Partial} {c : Char} {cs : List Char}
    (h : r.read c = .ok (none, next)) :
    readFrom known r p (c :: cs) = readFrom known next p cs :=
  readFrom_cons h

theorem readFrom_cons_some {r : Reader} (t : Token) (next : Reader) {p : Partial} {c : Char}
    {cs : List Char} (h : r.read c = .ok (some t, next)) :
    readFrom known r p (c :: cs) =
      p.feed known t >>= fun p => readFrom known next p cs := by
  rw [readFrom_cons h]
  show (p.feed known t >>= pure) >>= _ = _
  rw [bind_pure]

theorem readFrom_cons_error {r : Reader} {p : Partial} {c : Char} {cs : List Char}
    {e : PatternError} (h : r.read c = .error e) :
    readFrom known r p (c :: cs) = .error e := by
  have htokens : r.tokens (c :: cs) = ([], some e) := by
    rw [Reader.tokens, h]
  rw [readFrom, htokens]
  rfl

theorem unescape_eq_ok_iff {c d : Char} : unescape c = .ok d ↔ Escapes c d := by
  by_cases hs : c = 's'
  · simp [unescape, Escapes, hs, eq_comm]
  by_cases hn : c = 'n'
  · simp [unescape, Escapes, hn, eq_comm]
  by_cases hr : c = 'r'
  · simp [unescape, Escapes, hr, eq_comm]
  by_cases ht : c = 't'
  · simp [unescape, Escapes, ht, eq_comm]
  have hmem : (c = '.' ∨ c = '\\' ∨ c ∈ operators) ↔
      c ∈ ['.', '\\', '?', '*', ':', '(', ')', '+', '^', '|', '[', ']', '#'] := by
    simp [operators]
  have hletter : (c, d) ∉ [('s', ' '), ('n', '\n'), ('r', '\r'), ('t', '\t')] := by
    simp [hs, hn, hr, ht]
  simp only [unescape, hs, hn, hr, ht, if_false, hmem, Escapes, hletter, false_or]
  split
  · next h => simp [h, eq_comm]
  · next h => simp [h]

/-! ## Classes -/

theorem read_inClass_of_escape {negated : Bool} {set : SortedSet Label} :
    (Reader.inClass negated set).read '\\' = .ok (none, .escapeInClass negated set) := by
  rfl

theorem readFrom_of_members {s : List Char} {ms : List Label} (h : Members s ms) (negated : Bool)
    (set : SortedSet Label) (p : Partial) (rest : List Char) :
    readFrom known (.inClass negated set) p (s ++ rest) =
      readFrom known (.inClass negated (set.insertAll ms)) p rest := by
  induction h generalizing set with
  | nil => rfl
  | any _ ih =>
    rw [List.cons_append, readFrom_cons_none (.inClass negated (set.insert .any)) rfl]
    exact ih _
  | @escape c d s ms hescape _ ih =>
    have hread : (Reader.escapeInClass negated set).read c =
        .ok (none, .inClass negated (set.insert (.char d))) := by
      rw [Reader.read, unescape_eq_ok_iff.2 hescape]
      rfl
    rw [List.cons_append, List.cons_append, readFrom_cons_none _ read_inClass_of_escape,
      readFrom_cons_none _ hread]
    exact ih _
  | @char c s ms hc _ ih =>
    have hread : (Reader.inClass negated set).read c =
        .ok (none, .inClass negated (set.insert (.char c))) := by
      simp only [List.mem_cons, List.not_mem_nil, or_false, not_or] at hc
      simp [Reader.read, Reader.readInClass, operators, hc]
    rw [List.cons_append, readFrom_cons_none _ hread]
    exact ih _

/-- A class that is read to its end holds members up to a `]`. -/
theorem exists_members {cs : List Char} {negated : Bool} {set : SortedSet Label} {p : Partial}
    {a : Regex} :
    (readFrom known (.inClass negated set) p cs = .ok a →
      ∃ s ms rest, cs = s ++ ']' :: rest ∧ Members s ms) ∧
    (readFrom known (.escapeInClass negated set) p cs = .ok a →
      ∃ c d s ms rest, cs = c :: s ++ ']' :: rest ∧ Escapes c d ∧ Members s ms) := by
  induction cs generalizing set with
  | nil => exact ⟨fun h => (nomatch h), fun h => (nomatch h)⟩
  | cons c cs ih =>
    constructor
    · intro h
      by_cases hclose : c = ']'
      · exact ⟨[], [], cs, by rw [hclose]; rfl, .nil⟩
      by_cases hany : c = '.'
      · subst hany
        rw [readFrom_cons_none (.inClass negated (set.insert .any)) rfl] at h
        obtain ⟨s, ms, rest, rfl, hs⟩ := ih.1 h
        exact ⟨_, _, rest, rfl, .any hs⟩
      by_cases hescape : c = '\\'
      · subst hescape
        rw [readFrom_cons_none _ read_inClass_of_escape] at h
        obtain ⟨c, d, s, ms, rest, rfl, hcd, hs⟩ := ih.2 h
        exact ⟨_, _, rest, rfl, .escape hcd hs⟩
      by_cases hplain : c ∈ ['?', '*', ':', '(', ')', '+', '^', '|', '[']
      · have herror : ∃ e, (Reader.inClass negated set).read c = .error e := by
          simp only [List.mem_cons, List.not_mem_nil, or_false] at hplain
          rcases hplain with rfl | rfl | rfl | rfl | rfl | rfl | rfl | rfl | rfl <;> exact ⟨_, rfl⟩
        obtain ⟨e, he⟩ := herror
        rw [readFrom_cons_error he] at h
        cases h
      · have hc : c ∉ ['?', '*', ':', '(', ')', '+', '^', '|', '[', ']', '.', '\\'] := by
          simp only [List.mem_cons, List.not_mem_nil, or_false, not_or] at hplain ⊢
          exact ⟨hplain.1, hplain.2.1, hplain.2.2.1, hplain.2.2.2.1, hplain.2.2.2.2.1,
            hplain.2.2.2.2.2.1, hplain.2.2.2.2.2.2.1, hplain.2.2.2.2.2.2.2.1,
            hplain.2.2.2.2.2.2.2.2, hclose, hany, hescape⟩
        rw [← List.singleton_append, readFrom_of_members (.char hc .nil)] at h
        obtain ⟨s, ms, rest, rfl, hs⟩ := ih.1 h
        exact ⟨_, _, rest, rfl, .char hc hs⟩
    · intro h
      cases hd : unescape c with
      | error e =>
        have hread : (Reader.escapeInClass negated set).read c = .error e := by
          rw [Reader.read, hd]
          rfl
        rw [readFrom_cons_error hread] at h
        cases h
      | ok d =>
        have hread : (Reader.escapeInClass negated set).read c =
            .ok (none, .inClass negated (set.insert (.char d))) := by
          rw [Reader.read, hd]
          rfl
        rw [readFrom_cons_none _ hread] at h
        obtain ⟨s, ms, rest, rfl, hs⟩ := ih.1 h
        exact ⟨c, d, s, ms, rest, rfl, unescape_eq_ok_iff.1 hd, hs⟩

theorem ofList_eq_empty_iff {ms : List Label} : SortedSet.ofList ms = ∅ ↔ ms = [] := by
  rw [SortedSet.eq_empty_iff, List.eq_nil_iff_forall_not_mem]
  simp only [SortedSet.mem_ofList]

theorem classLabels_listed {ms labels : List Label} :
    classLabels false (.ofList ms) = .ok labels ↔
      ms ≠ [] ∧ labels = (SortedSet.ofList ms).toList := by
  have hempty : (SortedSet.ofList ms).toList = [] ↔ ms = [] := by
    refine Iff.trans ⟨fun h => ?_, fun h => ?_⟩ ofList_eq_empty_iff
    · exact SortedSet.toList_injective h
    · exact congrArg SortedSet.toList h
  have heq (h : ms ≠ []) : classLabels false (.ofList ms) = .ok (SortedSet.ofList ms).toList := by
    simp [classLabels, ofList_eq_empty_iff, hempty, h]
  constructor
  · intro h
    by_cases hms : ms = []
    · subst hms
      cases h
    · exact ⟨hms, Except.ok.inj (h.symm.trans (heq hms))⟩
  · rintro ⟨hms, rfl⟩
    exact heq hms

theorem classLabels_others {ms labels : List Label} :
    classLabels true (.ofList ms) = .ok labels ↔
      ms ≠ [] ∧ .any ∉ ms ∧ others ms ≠ [] ∧ labels = others ms := by
  have hothers : (negationCodes.map fun code => Label.char (Char.ofNat code)).filter
      (· ∉ SortedSet.ofList ms) = others ms := by
    have hcodes : negationCodes = List.range' 9 118 := by decide
    simp only [others, SortedSet.mem_ofList, hcodes]
  have heq : classLabels true (.ofList ms) =
      if ms = [] ∨ .any ∈ ms ∨ others ms = [] then .error .emptyClass else .ok (others ms) := by
    by_cases hany : .any ∈ ms
    · simp [classLabels, hany]
    · simp only [classLabels, SortedSet.mem_ofList, hany, and_false, if_false, if_true, false_or,
        SortedSet.isEmpty_iff, ofList_eq_empty_iff, ← hothers, List.isEmpty_iff]
  rw [heq]
  split
  · next h =>
    constructor
    · intro h'
      cases h'
    · rintro ⟨hms, hany, hne, -⟩
      exact (h.elim hms fun h => h.elim hany hne).elim
  · next h =>
    obtain ⟨hms, h⟩ := not_or.1 h
    obtain ⟨hany, hne⟩ := not_or.1 h
    exact ⟨fun h' => ⟨hms, hany, hne, (Except.ok.inj h').symm⟩, fun h' => by rw [h'.2.2.2]⟩

/-! ## Embedded names -/

theorem readFrom_of_name {name : List Char} (hname : ':' ∉ name) (before : List Char) (p : Partial)
    (rest : List Char) :
    readFrom known (.embed before) p (name ++ ':' :: rest) =
      p.feed known (.embed (String.ofList (before.reverse ++ name))) >>= fun p =>
        readFrom known .outside p rest := by
  induction name generalizing before with
  | nil =>
    rw [List.append_nil]
    exact readFrom_cons_some _ _ rfl
  | cons c name ih =>
    obtain ⟨hc, hname⟩ := not_or.1 (List.mem_cons.not.1 hname)
    have hread : (Reader.embed before).read c = .ok (none, .embed (c :: before)) :=
      if_neg fun h => hc h.symm
    rw [List.cons_append, readFrom_cons_none _ hread, ih hname, List.reverse_cons, List.append_assoc]
    rfl

/-- A name that is read to its end goes up to a `:`. -/
theorem exists_name {cs before : List Char} {p : Partial} {a : Regex}
    (h : readFrom known (.embed before) p cs = .ok a) :
    ∃ name rest, cs = name ++ ':' :: rest ∧ ':' ∉ name := by
  induction cs generalizing before with
  | nil => cases h
  | cons c cs ih =>
    by_cases hc : c = ':'
    · exact ⟨[], cs, by rw [hc]; rfl, List.not_mem_nil⟩
    · have hread : (Reader.embed before).read c = .ok (none, .embed (c :: before)) := if_neg hc
      rw [readFrom_cons_none _ hread] at h
      obtain ⟨name, rest, rfl, hname⟩ := ih h
      exact ⟨c :: name, rest, rfl, fun h => (List.mem_cons.1 h).elim (hc ∘ Eq.symm) hname⟩

/-! ## Items -/

/-- What the operators and groups of regular expressions stand for. -/
def interpretation : Interpretation algebra where
  meaning
    | .concat => .between .concat
    | .alt => .between .alt
    | .star => .after .star
    | .plus => .after .plus
    | .optional => .after .optional
  close inner := if inner.isEmpty then .error .emptyGroup else .ok inner
  top := 3
  precedence_after {op f} h := by cases op <;> first | rfl | cases h
  precedence_between {op f} h := by cases op <;> first | decide | cases h
  apply_after_iff {op f operands result} h := by
    cases op <;> cases h <;> cases operands <;> simp [algebra, Operator.apply, eq_comm]
  apply_between_iff {op f operands result} h := by
    cases op <;> cases h <;> rcases operands with _ | ⟨b, _ | ⟨a, rest⟩⟩ <;>
      simp [algebra, Operator.apply, eq_comm]
  close_nil h := by cases h
  close_singleton h := ⟨_, (Except.ok.inj h).symm⟩

/-- A part of an expression, as it is written. -/
inductive Chunk (known : String → Bool) : List Char → Item Regex Operator → Prop
  | operand {s : List Char} {a : Regex} : Atom known s a → Chunk known s (.operand a)
  | star : Chunk known ['*'] (.operator .star)
  | plus : Chunk known ['+'] (.operator .plus)
  | optional : Chunk known ['?'] (.operator .optional)
  | alt : Chunk known ['|'] (.operator .alt)
  | openGroup : Chunk known ['('] .openGroup
  | closeGroup : Chunk known [')'] .closeGroup

/-- Reads an item, which is joined to the operand before it if it begins one of its own. -/
def Partial.feedItem (p : Partial) (item : Item Regex Operator) :
    Except PatternError Partial := do
  let stack ← interpretation.feedJoined .concat p.afterOperand p.stack item
  return { stack, afterOperand := interpretation.completes item }

/-- Feeding a token that is an item of its own. -/
theorem feed_eq {p : Partial} {t : Token} {item : Item Regex Operator}
    (hbegins : t.beginsOperand = Interpretation.begins item)
    (hcompletes : t.completesOperand = interpretation.completes item)
    (hplace : ∀ stack, Partial.place known stack t = interpretation.feed stack item) :
    p.feed known t = p.feedItem item := by
  rw [Partial.feed, Partial.feedItem, Interpretation.feedJoined, hbegins, hcompletes]
  split
  · simp only [hplace, bind_assoc]
  · simp only [hplace, bind_assoc]

/-- A class is joined when it opens, and is an operand when it ends. -/
theorem feed_class (known : String → Bool) {p : Partial} {labels : List Label} :
    (p.feed known .openClass >>= fun p => p.feed known (.members labels)) =
      p.feedItem (.operand (.oneOf labels)) := by
  obtain ⟨stack, afterOperand⟩ := p
  cases afterOperand with
  | false => rfl
  | true =>
    show (stack.addOperator algebra .concat >>= _) >>= _ =
      (stack.addOperator algebra .concat >>= _) >>= _
    cases stack.addOperator algebra .concat <;> rfl

theorem feed_embed {p : Partial} {name : String} (h : known name = true) :
    p.feed known (.embed name) = p.feedItem (.operand (.embed name)) :=
  feed_eq rfl rfl fun _ => if_pos h

/-- Only names that are known can be embedded. -/
theorem known_of_feed {p p' : Partial} {name : String} (h : p.feed known (.embed name) = .ok p') :
    known name = true := by
  have hplace {stack placed} (h : Partial.place known stack (.embed name) = .ok placed) :
      known name = true := by
    rw [Partial.place] at h
    split at h
    · assumption
    · cases h
  rw [Partial.feed] at h
  split at h
  all_goals
    obtain ⟨stack, -, h⟩ := bind_eq_ok_iff.1 h
    obtain ⟨placed, h, -⟩ := bind_eq_ok_iff.1 h
    exact hplace h

theorem feed_label (known : String → Bool) {p : Partial} {l : Label} :
    p.feed known (.label l) = p.feedItem (.operand (.oneOf [l])) :=
  feed_eq rfl rfl fun _ => rfl

/-- A class that lists labels is read as one operand. -/
theorem readFrom_of_labels {negated : Bool} {s : List Char} {ms labels : List Label}
    (hs : Members s ms) (hlabels : classLabels negated (.ofList ms) = .ok labels) (p : Partial)
    (rest : List Char) :
    readFrom known (.inClass negated ∅) p (s ++ ']' :: rest) =
      p.feed known (.members labels) >>= fun p => readFrom known .outside p rest := by
  have hread : (Reader.inClass negated (.ofList ms)).read ']' =
      .ok (some (.members labels), .outside) := by
    show (classLabels negated _).map _ = _
    rw [hlabels]
    rfl
  rw [readFrom_of_members hs]
  exact readFrom_cons_some _ _ hread

/-- A class starts like the text of its members, unless it starts with `^`. -/
theorem readFrom_openClass {p : Partial} {cs : List Char} (h : ∀ rest, cs ≠ '^' :: rest) :
    readFrom known .openClass p cs = readFrom known (.inClass false ∅) p cs := by
  cases cs with
  | nil => rfl
  | cons c cs =>
    have hc : c ≠ '^' := fun hc => h cs (by rw [hc])
    have hread : Reader.openClass.read c = (Reader.inClass false ∅).read c := if_neg hc
    cases hnext : (Reader.inClass false ∅).read c with
    | error e => rw [readFrom_cons_error hnext, readFrom_cons_error (hread.trans hnext)]
    | ok r => rw [readFrom_cons hnext, readFrom_cons (hread.trans hnext)]

theorem Members.ne_caret {s : List Char} {ms : List Label} (h : Members s ms) (rest : List Char) :
    ∀ rest', s ++ ']' :: rest ≠ '^' :: rest' := by
  intro rest' heq
  cases h with
  | nil => cases heq
  | any => cases heq
  | escape => cases heq
  | char hc =>
    cases heq
    simp at hc

theorem readFrom_of_atom {s : List Char} {a : Regex} (h : Atom known s a) (p : Partial)
    (rest : List Char) :
    readFrom known .outside p (s ++ rest) =
      p.feedItem (.operand a) >>= fun p => readFrom known .outside p rest := by
  cases h with
  | @char c hc =>
    have hread : Reader.outside.read c = .ok (some (.label (.char c)), .outside) := by
      simp only [List.mem_cons, List.not_mem_nil, or_false, not_or] at hc
      simp [Reader.read, Reader.readOutside, hc]
    rw [← feed_label known]
    exact readFrom_cons_some _ _ hread
  | any =>
    rw [← feed_label known]
    exact readFrom_cons_some _ _ rfl
  | @escape c d hcd =>
    have hread : Reader.escape.read c = .ok (some (.label (.char d)), .outside) := by
      rw [Reader.read, unescape_eq_ok_iff.2 hcd]
      rfl
    rw [← feed_label known, List.cons_append,
      readFrom_cons_none .escape rfl]
    exact readFrom_cons_some _ _ hread
  | @embed name hname hknown =>
    rw [← feed_embed hknown, List.append_assoc, List.cons_append,
      readFrom_cons_none (.embed []) rfl]
    exact readFrom_of_name hname [] p rest
  | @members s ms hs hne =>
    rw [← feed_class known, List.append_assoc, List.cons_append,
      readFrom_cons_some .openClass .openClass rfl, bind_assoc]
    refine bind_congr fun p => ?_
    rw [List.singleton_append, readFrom_openClass (hs.ne_caret rest)]
    exact readFrom_of_labels hs (classLabels_listed.2 ⟨hne, rfl⟩) p rest
  | @others s ms hs hne hany hothers =>
    rw [← feed_class known, List.append_assoc, List.cons_append, List.cons_append,
      readFrom_cons_some .openClass .openClass rfl, bind_assoc]
    refine bind_congr fun p => ?_
    rw [readFrom_cons_none (.inClass true ∅) rfl, List.singleton_append]
    exact readFrom_of_labels hs (classLabels_others.2 ⟨hne, hany, hothers, rfl⟩) p rest

theorem readFrom_of_chunk {s : List Char} {item : Item Regex Operator} (h : Chunk known s item)
    (p : Partial) (rest : List Char) :
    readFrom known .outside p (s ++ rest) =
      p.feedItem item >>= fun p => readFrom known .outside p rest := by
  cases h with
  | operand h => exact readFrom_of_atom h p rest
  | star => 
    rw [← feed_eq (t := .star) rfl rfl fun _ => rfl]
    exact readFrom_cons_some _ _ rfl
  | plus =>
    rw [← feed_eq (t := .plus) rfl rfl fun _ => rfl]
    exact readFrom_cons_some _ _ rfl
  | optional =>
    rw [← feed_eq (t := .question) rfl rfl fun _ => rfl]
    exact readFrom_cons_some _ _ rfl
  | alt =>
    rw [← feed_eq (t := .bar) rfl rfl fun _ => rfl]
    exact readFrom_cons_some _ _ rfl
  | openGroup =>
    rw [← feed_eq (t := .openGroup) rfl rfl fun _ => rfl]
    exact readFrom_cons_some _ _ rfl
  | closeGroup =>
    have hplace (stack) : Partial.place known stack .closeGroup =
        interpretation.feed stack .closeGroup := by
      show (stack.leave algebra >>= _) = (stack.leave algebra >>= _)
      cases stack.leave algebra with
      | error e => rfl
      | ok r =>
        obtain ⟨inner, stack⟩ := r
        cases inner <;> rfl
    rw [← feed_eq (t := .closeGroup) rfl rfl hplace]
    exact readFrom_cons_some _ _ rfl

/-- A class that is read to its end lists labels. -/
theorem exists_labels {negated : Bool} {cs : List Char} {p : Partial} {a : Regex}
    (h : readFrom known (.inClass negated ∅) p cs = .ok a) :
    ∃ s ms rest labels, cs = s ++ ']' :: rest ∧ Members s ms ∧
      classLabels negated (.ofList ms) = .ok labels := by
  obtain ⟨s, ms, rest, rfl, hs⟩ := exists_members.1 h
  cases hlabels : classLabels negated (.ofList ms) with
  | error e =>
    have hread : (Reader.inClass negated (.ofList ms)).read ']' = .error e := by
      show (classLabels negated _).map _ = _
      rw [hlabels]
      rfl
    rw [readFrom_of_members hs] at h
    have herror := (readFrom_cons_error hread).symm.trans h
    cases herror
  | ok labels => exact ⟨s, ms, rest, labels, rfl, hs, hlabels⟩

/-- A text that is read and starts with `[` starts with a class. -/
theorem exists_class {cs : List Char} {p : Partial} {a : Regex}
    (h : readFrom known .outside p ('[' :: cs) = .ok a) :
    ∃ s rest b, '[' :: cs = s ++ rest ∧ Atom known s b := by
  rw [readFrom_cons_some .openClass .openClass rfl] at h
  obtain ⟨p', -, h⟩ := bind_eq_ok_iff.1 h
  by_cases hcaret : ∃ rest, cs = '^' :: rest
  · obtain ⟨cs, rfl⟩ := hcaret
    rw [readFrom_cons_none (.inClass true ∅) rfl] at h
    obtain ⟨s, ms, rest, labels, rfl, hs, hlabels⟩ := exists_labels h
    obtain ⟨hne, hany, hothers, -⟩ := classLabels_others.1 hlabels
    exact ⟨'[' :: '^' :: s ++ [']'], rest, _, by simp, .others hs hne hany hothers⟩
  · rw [readFrom_openClass fun rest hrest => hcaret ⟨rest, hrest⟩] at h
    obtain ⟨s, ms, rest, labels, rfl, hs, hlabels⟩ := exists_labels h
    exact ⟨'[' :: s ++ [']'], rest, _, by simp, .members hs (classLabels_listed.1 hlabels).1⟩

/-- A text that is read and starts with `:` starts with a name that is known. -/
theorem exists_embed {cs : List Char} {p : Partial} {a : Regex}
    (h : readFrom known .outside p (':' :: cs) = .ok a) :
    ∃ s rest b, ':' :: cs = s ++ rest ∧ Atom known s b := by
  rw [readFrom_cons_none (.embed []) rfl] at h
  obtain ⟨name, rest, rfl, hname⟩ := exists_name h
  rw [readFrom_of_name hname] at h
  obtain ⟨p', hfeed, -⟩ := bind_eq_ok_iff.1 h
  exact ⟨':' :: name ++ [':'], rest, _, by simp, .embed hname (known_of_feed hfeed)⟩

theorem exists_escape {cs : List Char} {p : Partial} {a : Regex}
    (h : readFrom known .outside p ('\\' :: cs) = .ok a) :
    ∃ s rest b, '\\' :: cs = s ++ rest ∧ Atom known s b := by
  rw [readFrom_cons_none .escape rfl] at h
  cases cs with
  | nil => cases h
  | cons c cs =>
    cases hd : unescape c with
    | error e =>
      have hread : Reader.escape.read c = .error e := by
        rw [Reader.read, hd]
        rfl
      rw [readFrom_cons_error hread] at h
      cases h
    | ok d => exact ⟨['\\', c], cs, _, rfl, .escape (unescape_eq_ok_iff.1 hd)⟩

/-- A text that is read starts with an item. -/
theorem exists_chunk {c : Char} {cs : List Char} {p : Partial} {a : Regex}
    (h : readFrom known .outside p (c :: cs) = .ok a) :
    ∃ s rest item, c :: cs = s ++ rest ∧ Chunk known s item := by
  have hatom : (∃ s rest b, c :: cs = s ++ rest ∧ Atom known s b) →
      ∃ s rest item, c :: cs = s ++ rest ∧ Chunk known s item :=
    fun ⟨s, rest, b, heq, hs⟩ => ⟨s, rest, _, heq, .operand hs⟩
  by_cases hc : c ∈ ['*', '+', '?', '|', '(', ')', '[', ']', '^', ':', '.', '\\']
  · simp only [List.mem_cons, List.not_mem_nil, or_false] at hc
    rcases hc with rfl | rfl | rfl | rfl | rfl | rfl | rfl | rfl | rfl | rfl | rfl | rfl
    · exact ⟨_, cs, _, rfl, .star⟩
    · exact ⟨_, cs, _, rfl, .plus⟩
    · exact ⟨_, cs, _, rfl, .optional⟩
    · exact ⟨_, cs, _, rfl, .alt⟩
    · exact ⟨_, cs, _, rfl, .openGroup⟩
    · exact ⟨_, cs, _, rfl, .closeGroup⟩
    · exact hatom (exists_class h)
    · cases h
    · cases h
    · exact hatom (exists_embed h)
    · exact hatom ⟨_, cs, _, rfl, .any⟩
    · exact hatom (exists_escape h)
  · exact hatom ⟨[c], cs, _, rfl, .char hc⟩

/-! ## Whole texts -/

open Precedence.Interpretation (Spelled Expression)

theorem Chunk.ne_nil {s : List Char} {item : Item Regex Operator} (h : Chunk known s item) :
    s ≠ [] := by
  cases h with
  | operand h => cases h <;> exact List.cons_ne_nil _ _
  | _ => exact List.cons_ne_nil _ _

/-- Reading a text is putting its items on the stack, with operands side by side joined. -/
theorem readFrom_of_spelled {items : List (Item Regex Operator)} {cs : List Char}
    (h : Spelled (Chunk known) items cs) (p : Partial) :
    readFrom known .outside p cs =
      interpretation.run p.stack (interpretation.joined .concat p.afterOperand items) >>=
        fun stack => ({ stack } : Partial).finish := by
  induction h generalizing p with
  | nil => rfl
  | cons hitem _ ih =>
    rw [readFrom_of_chunk hitem, Interpretation.run_joined_cons, bind_assoc, Partial.feedItem,
      bind_assoc]
    refine bind_congr fun stack => ?_
    exact ih _

/-- A text that is read spells items. -/
theorem exists_spelled {cs : List Char} {p : Partial} {a : Regex}
    (h : readFrom known .outside p cs = .ok a) :
    ∃ items, Spelled (Chunk known) items cs := by
  induction hn : cs.length using Nat.strongRecOn generalizing cs p with
  | ind n ih =>
    cases cs with
    | nil => exact ⟨[], .nil⟩
    | cons c cs =>
      obtain ⟨s, rest, item, heq, hchunk⟩ := exists_chunk h
      rw [heq] at h hn ⊢
      rw [readFrom_of_chunk hchunk] at h
      obtain ⟨p', -, h⟩ := bind_eq_ok_iff.1 h
      have hlt : rest.length < n := by
        have := List.length_pos_iff.2 hchunk.ne_nil
        rw [← hn, List.length_append]
        omega
      obtain ⟨items, hitems⟩ := ih rest.length hlt h rfl
      exact ⟨item :: items, .cons hchunk hitems⟩

/-! ## Reading and the grammar -/

/-- The part of an expression whose operators bind at least as tightly as `n`. -/
def Level.ofNat : Nat → Level
  | 0 | 1 => alternation
  | 2 => sequence
  | 3 => repetition
  | _ + 4 => atom

theorem Written.looser {m n : Nat} (hmn : m ≤ n) {s : List Char} {a : Regex}
    (h : Written known (.ofNat n) s a) : Written known (.ofNat m) s a := by
  induction hmn with
  | refl => exact h
  | @step n _ ih =>
    refine ih ?_
    match n with
    | 0 => exact h
    | 1 => exact .sequence h
    | 2 => exact .repetition h
    | 3 => exact .operand h
    | _ + 4 => exact h

/-- What expressions are built of is written at the levels of the grammar. -/
theorem writes :
    interpretation.Writes .concat (Chunk known) fun n s a => Written known (.ofNat n) s a where
  operand h := by
    cases h with
    | operand h => exact .atom h
  hollow _ _ hclose := by cases hclose
  group hopen hinner hclosing hclose := by
    cases hopen
    cases hclosing
    cases hclose
    exact .group hinner
  after hwritten h hop := by
    cases h with
    | star | plus | optional =>
      cases hop
      first | exact .star hwritten | exact .plus hwritten | exact .optional hwritten
    | alt => cases hop
  between hleft h hright hop := by
    cases h with
    | alt =>
      cases hop
      exact .alt hleft hright
    | _ => cases hop
  juxtaposed hleft hright hop := by
    cases hop
    exact .concat hleft hright
  looser hmn h := h.looser hmn

/-- How tightly the operators of a part bind at least. -/
def Level.rank : Level → Nat
  | alternation => 1
  | sequence => 2
  | repetition => 3
  | atom => 4

/-- What is written is spelled by the items of an expression. -/
theorem exists_expression {l : Level} {s : List Char} {a : Regex} (h : Written known l s a) :
    ∃ items, Spelled (Chunk known) items s ∧ interpretation.Expression .concat l.rank items a := by
  induction h with
  | alt _ _ ihleft ihright =>
    obtain ⟨left, hs, hleft⟩ := ihleft
    obtain ⟨right, ht, hright⟩ := ihright
    have hop : interpretation.meaning .alt = .between .alt := rfl
    exact ⟨_, hs.append (.cons .alt ht), .between hop hleft hright⟩
  | concat _ _ ihleft ihright =>
    obtain ⟨left, hs, hleft⟩ := ihleft
    obtain ⟨right, ht, hright⟩ := ihright
    have hop : interpretation.meaning .concat = .between .concat := rfl
    exact ⟨_, hs.append ht, .juxtaposed hop hleft hright⟩
  | sequence _ ih | repetition _ ih | operand _ ih =>
    obtain ⟨items, hs, hitems⟩ := ih
    exact ⟨items, hs, hitems.looser (by decide)⟩
  | star _ ih =>
    obtain ⟨items, hs, hitems⟩ := ih
    have hop : interpretation.meaning .star = .after .star := rfl
    exact ⟨_, hs.append (.singleton .star), .after hop hitems⟩
  | plus _ ih =>
    obtain ⟨items, hs, hitems⟩ := ih
    have hop : interpretation.meaning .plus = .after .plus := rfl
    exact ⟨_, hs.append (.singleton .plus), .after hop hitems⟩
  | optional _ ih =>
    obtain ⟨items, hs, hitems⟩ := ih
    have hop : interpretation.meaning .optional = .after .optional := rfl
    exact ⟨_, hs.append (.singleton .optional), .after hop hitems⟩
  | group _ ih =>
    obtain ⟨items, hs, hitems⟩ := ih
    exact ⟨_, (Spelled.cons .openGroup hs).append (.singleton .closeGroup), hitems.group rfl⟩
  | atom h => exact ⟨_, .singleton (.operand h), .operand _⟩

theorem finish_eq_ok_iff {p : Partial} {a : Regex} :
    p.finish = .ok a ↔ p.stack.complete algebra = .ok [a] := by
  rw [Partial.finish]
  cases p.stack.complete algebra with
  | error e => exact ⟨fun h => (nomatch h), fun h => (nomatch h)⟩
  | ok operands =>
    match operands with
    | [] => exact ⟨fun h => (nomatch h), fun h => (nomatch h)⟩
    | [b] => exact ⟨fun h => by cases h; rfl, fun h => by cases h; rfl⟩
    | _ :: _ :: _ => exact ⟨fun h => (nomatch h), fun h => (nomatch h)⟩

theorem readFrom_eq_ok_iff {cs : List Char} {a : Regex} :
    readFrom known .outside {} cs = .ok a ↔ Written known .alternation cs a := by
  constructor
  · intro h
    obtain ⟨items, hitems⟩ := exists_spelled h
    rw [readFrom_of_spelled hitems] at h
    obtain ⟨stack, hrun, hfinish⟩ := bind_eq_ok_iff.1 h
    rcases writes.of_complete rfl hitems hrun (finish_eq_ok_iff.1 hfinish) with hnil | ⟨b, hb, hs⟩
    · cases hnil
    · cases hb
      exact hs
  · intro h
    obtain ⟨items, hitems, hexpression⟩ := exists_expression h
    obtain ⟨stack, hrun, hcomplete⟩ := hexpression.exists_complete
    rw [readFrom_of_spelled hitems]
    exact bind_eq_ok_iff.2 ⟨stack, hrun, finish_eq_ok_iff.2 hcomplete⟩

/-- Exactly what is written is read. -/
theorem read_eq_ok_iff {text : List Char} {a : Regex} :
    read known text = .ok a ↔
      Written known .alternation (text.filter fun c => c ≠ ' ' ∧ c ≠ '\t') a := by
  rw [← readFrom_eq_ok_iff, read]
  cases text.filter fun c => c ≠ ' ' ∧ c ≠ '\t' with
  | nil => exact ⟨fun h => (nomatch h), fun h => (nomatch h)⟩
  | cons c cs => rfl

end Predictive.Regex
