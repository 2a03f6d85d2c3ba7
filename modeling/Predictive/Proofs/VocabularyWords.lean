import Predictive.Grammar.Vocabulary
import Predictive.Proofs.DefinitionLines
import Predictive.Proofs.InternalLines

/-!
# The words of grammar texts

A token of a grammar text tells its name by its first character: after this comes any number of
characters of some class, or one of some fixed texts (`Vocabulary.tail?`). These are the languages of
the token definitions (`Vocabulary.denotes_tokenMeanings`), so the patterns that they compile to match
just the words of their names (`Vocabulary.names_iff_mem_word`).
-/

namespace Predictive

open Computability

/-! ## Languages of one character at a time -/

/-- The texts of one character of a class. -/
def oneIn (p : Char → Bool) : Language Char := {cs | ∃ c, cs = [c] ∧ p c = true}

variable {p q : Char → Bool} {cs : List Char} {L : Language Char}

theorem mem_oneIn : cs ∈ oneIn p ↔ ∃ c, cs = [c] ∧ p c = true := Iff.rfl

theorem oneIn_congr (h : ∀ c, p c = true ↔ q c = true) : oneIn p = oneIn q :=
  congrArg oneIn (funext fun c => Bool.eq_iff_iff.2 (h c))

theorem oneIn_add (p q : Char → Bool) : oneIn p + oneIn q = oneIn fun c => p c || q c := by
  ext cs
  simp only [Language.mem_add, mem_oneIn, Bool.or_eq_true, and_or_left, exists_or]

theorem mem_oneIn_mul : cs ∈ oneIn p * L ↔ ∃ c w, cs = c :: w ∧ p c = true ∧ w ∈ L := by
  rw [Language.mem_mul]
  constructor
  · rintro ⟨_, ⟨c, rfl, hc⟩, w, hw, rfl⟩
    exact ⟨c, w, rfl, hc, hw⟩
  · rintro ⟨c, w, rfl, hc, hw⟩
    exact ⟨[c], ⟨c, rfl, hc⟩, w, hw, rfl⟩

theorem mem_kstar_oneIn : cs ∈ (oneIn p)∗ ↔ ∀ c ∈ cs, p c = true := by
  rw [Language.mem_kstar]
  constructor
  · rintro ⟨words, rfl, hwords⟩ c hc
    obtain ⟨word, hword, hc⟩ := List.mem_flatten.1 hc
    obtain ⟨d, rfl, hd⟩ := hwords word hword
    rwa [List.mem_singleton.1 hc]
  · intro h
    refine ⟨cs.map fun c => [c], by rw [← List.flatMap_def, List.flatMap_singleton'],
      fun word hword => ?_⟩
    obtain ⟨c, hc, rfl⟩ := List.mem_map.1 hword
    exact ⟨c, rfl, h c hc⟩

/-- A class that lists characters. -/
theorem Regex.languageWith_chars (embedded : String → Language Char) (listed : List Char) :
    (oneOf (listed.map .char)).languageWith embedded = oneIn fun c => decide (c ∈ listed) := by
  ext cs
  refine exists_congr fun c => ?_
  simp only [List.mem_map, decide_eq_true_eq]
  constructor
  · rintro ⟨_, ⟨d, hd, rfl⟩, rfl, h | h⟩
    · cases h
    · cases h
      exact ⟨rfl, hd⟩
  · rintro ⟨rfl, hc⟩
    exact ⟨_, ⟨c, hc, rfl⟩, rfl, .inr rfl⟩

section

variable (embedded : String → Language Char) (a b : Regex)

theorem Regex.languageWith_concat :
    (concat a b).languageWith embedded = a.languageWith embedded * b.languageWith embedded := rfl

theorem Regex.languageWith_alt :
    (alt a b).languageWith embedded = a.languageWith embedded + b.languageWith embedded := rfl

theorem Regex.languageWith_star :
    (star a).languageWith embedded = (a.languageWith embedded)∗ := rfl

theorem Regex.languageWith_plus :
    (plus a).languageWith embedded = a.languageWith embedded * (a.languageWith embedded)∗ := rfl

theorem Regex.languageWith_embed (name : String) :
    (embed name).languageWith embedded = embedded name := rfl

end

/-- An expression may embed every name that is known. -/
theorem Regex.Written.mono {known known' : String → Bool} {l : Level} {s : List Char} {a : Regex}
    (h : Written known l s a) (hknown : ∀ name, known name = true → known' name = true) :
    Written known' l s a := by
  induction h with
  | alt _ _ ihs iht => exact ihs.alt iht
  | sequence _ ih => exact ih.sequence
  | concat _ _ ihs iht => exact ihs.concat iht
  | repetition _ ih => exact ih.repetition
  | star _ ih => exact ih.star
  | plus _ ih => exact ih.plus
  | optional _ ih => exact ih.optional
  | operand _ ih => exact ih.operand
  | group _ ih => exact ih.group
  | atom h =>
    refine .atom ?_
    cases h with
    | char h => exact .char h
    | any => exact .any
    | escape h => exact .escape h
    | embed hname h => exact .embed hname (hknown _ h)
    | members h hne => exact .members h hne
    | others h hne hany hothers => exact .others h hne hany hothers

namespace Grammar.Vocabulary

open Patterns (Meaning named Offers)

/-! ## Words -/

/-- A character with which a name can begin. -/
def isLetter (c : Char) : Bool := c.isAlpha || c = '_'

/-- A character of a name. -/
def isNameChar (c : Char) : Bool := isLetter c || c.isDigit

/-- A character of a blank between tokens. -/
def isBlank (c : Char) : Bool := c = ' ' || c = '\t'

/-- A character of a comment. -/
def inComment (c : Char) : Bool := 9 ≤ c.toNat && c.toNat ≤ 126 && c ≠ '\n' && c ≠ '\r'

/-- What can follow the first character of a token. -/
inductive Tail
  /-- Any number of characters of a class. -/
  | run (p : Char → Bool)
  /-- One of some texts. -/
  | oneOf (texts : List (List Char))

/-- The line breaks. -/
def breaks : List (List Char) := [['\r', '\n'], ['\r'], ['\n']]

/-- The name of the tokens that begin with a character, and what can follow it. -/
def tail? (c : Char) : Option (String × Tail) :=
  if isLetter c then some ("id", .run isNameChar)
  else match c with
  | '-' => some ("sep", .oneOf [['>']])
  | '*' | '?' | '|' => some ("op", .oneOf [[]])
  | '(' => some ("lparen", .oneOf [[]])
  | ')' => some ("rparen", .oneOf [[]])
  | '[' => some ("multi_child", .oneOf [['>', '1', ']']])
  | '\r' => some ("eol", .oneOf [['\n'], []])
  | '\n' => some ("eol", .oneOf [[]])
  | ' ' | '\t' => some ("skip", .run isBlank)
  | '#' => some ("skip", .run inComment)
  | '\\' => some ("skip", .oneOf breaks)
  | _ => none

/-- The texts that a tail can be. -/
def Tail.language : Tail → Language Char
  | run p => (oneIn p)∗
  | oneOf texts => {w | w ∈ texts}

/-- The tokens of a name. -/
def Word (name : String) : Language Char :=
  {cs | ∃ c tail w, cs = c :: w ∧ tail? c = some (name, tail) ∧ w ∈ tail.language}

/-! ## Classes of characters -/

/-- The characters with which a name can begin, by their codes. -/
def letters : List Char := "ABCDEFGHIJKLMNOPQRSTUVWXYZ_abcdefghijklmnopqrstuvwxyz".toList

/-- The digits, by their codes. -/
def digits : List Char := "0123456789".toList

/-- What holds of all characters that are ASCII holds of one with a code below 128. -/
theorem of_forall_code (P : Char → Prop) (h : ∀ n ∈ List.range 128, P (Char.ofNat n)) {c : Char}
    (hc : c.toNat < 128) : P c := by
  simpa using h c.toNat (List.mem_range.2 hc)

theorem toNat_of_isNameChar {c : Char} (h : isNameChar c = true) :
    48 ≤ c.toNat ∧ c.toNat ≤ 57 ∨ 65 ≤ c.toNat ∧ c.toNat ≤ 90 ∨ c.toNat = 95 ∨
      97 ≤ c.toNat ∧ c.toNat ≤ 122 := by
  refine Definitions.toNat_of_isAlphanum ?_
  simp only [isNameChar, isLetter, Bool.or_eq_true, decide_eq_true_eq] at h
  simp only [Char.isAlphanum, Bool.or_eq_true]
  tauto

theorem mem_letters_iff {c : Char} : c ∈ letters ↔ isLetter c = true := by
  constructor
  · have hall : letters.all isLetter = true := by decide +kernel
    exact List.all_eq_true.1 hall c
  · intro h
    have hcode := toNat_of_isNameChar (c := c) (by simp [isNameChar, h])
    have hall : ∀ n ∈ List.range 128, isLetter (Char.ofNat n) = true → Char.ofNat n ∈ letters := by
      decide +kernel
    exact of_forall_code (fun c => isLetter c = true → c ∈ letters) hall (by omega) h

theorem mem_digits_iff {c : Char} : c ∈ digits ↔ c.isDigit = true := by
  constructor
  · have hall : digits.all Char.isDigit = true := by decide +kernel
    exact List.all_eq_true.1 hall c
  · intro h
    have hcode := toNat_of_isNameChar (c := c) (by simp [isNameChar, h])
    have hall : ∀ n ∈ List.range 128, (Char.ofNat n).isDigit = true → Char.ofNat n ∈ digits := by
      decide +kernel
    exact of_forall_code (fun c => c.isDigit = true → c ∈ digits) hall (by omega) h

/-! ## The languages of the definitions -/

/-- The texts of a character of a class with a tail. -/
def starting (p : Char → Bool) (tail : Tail) : Language Char := oneIn p * tail.language

/-- The definitions that are only embedded in others, with their languages. -/
def embeddedMeanings : List (Definition × Language Char) :=
  [({ name := "alpha", regex := "[abcdefghijklmnopqrstuvwxyzABCDEFGHIJKLMNOPQRSTUVWXYZ_]",
      internal := true }, oneIn isLetter),
   ({ name := "digit", regex := "[0123456789]", internal := true }, oneIn Char.isDigit),
   ({ name := "newline", regex := "(\\n | \\r | \\r\\n)", internal := true },
     (Tail.oneOf breaks).language)]

/-- The definitions of tokens, with their languages. -/
def tokenMeanings : List (Definition × Language Char) :=
  [({ name := "id", regex := ":alpha: (:alpha: | :digit:)*" }, starting isLetter (.run isNameChar)),
   ({ name := "sep", regex := "->" }, starting (· = '-') (.oneOf [['>']])),
   ({ name := "op", regex := "[\\* \\? \\|]" }, oneIn fun c => c ∈ ['*', '?', '|']),
   ({ name := "lparen", regex := "\\(" }, oneIn (· = '(')),
   ({ name := "rparen", regex := "\\)" }, oneIn (· = ')')),
   ({ name := "multi_child", regex := "\\[>1\\]" }, starting (· = '[') (.oneOf [['>', '1', ']']])),
   ({ name := "eol", regex := ":newline:" }, (Tail.oneOf breaks).language),
   ({ name := "skip", regex := "[\\s \\t]+" }, starting isBlank (.run isBlank)),
   ({ name := "skip", regex := "\\# [^\\n \\r]*" }, starting (· = '#') (.run inComment)),
   ({ name := "skip", regex := "\\\\ :newline:" }, starting (· = '\\') (.oneOf breaks))]

/-- What the embedded names stand for. -/
structure Embeds (embedded : String → Language Char) : Prop where
  alpha : embedded "alpha" = oneIn isLetter
  digit : embedded "digit" = oneIn Char.isDigit
  newline : embedded "newline" = (Tail.oneOf breaks).language

/-! ### Languages of expressions -/

theorem languageWith_char (embedded : String → Language Char) (c : Char) :
    (Regex.oneOf [.char c]).languageWith embedded = oneIn (· = c) :=
  (Regex.languageWith_chars embedded [c]).trans (oneIn_congr fun d => by simp)

theorem mem_language_oneOf {texts : List (List Char)} {w : List Char} :
    w ∈ (Tail.oneOf texts).language ↔ w ∈ texts := Iff.rfl

theorem oneIn_eq (c : Char) : oneIn (· = c) = (Tail.oneOf [[c]]).language := by
  ext w
  rw [mem_language_oneOf, List.mem_singleton, mem_oneIn]
  simp only [decide_eq_true_eq, exists_eq_right]

theorem oneIn_mul_oneOf (c : Char) (texts : List (List Char)) :
    oneIn (· = c) * (Tail.oneOf texts).language = (Tail.oneOf (texts.map (c :: ·))).language := by
  ext w
  rw [mem_oneIn_mul, mem_language_oneOf, List.mem_map]
  simp only [decide_eq_true_eq, mem_language_oneOf]
  constructor
  · rintro ⟨_, w, rfl, rfl, hw⟩
    exact ⟨w, hw, rfl⟩
  · rintro ⟨w, hw, rfl⟩
    exact ⟨c, w, rfl, rfl, hw⟩

theorem oneOf_add (texts texts' : List (List Char)) :
    (Tail.oneOf texts).language + (Tail.oneOf texts').language =
      (Tail.oneOf (texts ++ texts')).language := by
  ext w
  rw [Language.mem_add, mem_language_oneOf, mem_language_oneOf, mem_language_oneOf, List.mem_append]

theorem languageWith_comment (embedded : String → Language Char) :
    (Regex.oneOf (Regex.others [.char '\n', .char '\r'])).languageWith embedded = oneIn inComment := by
  ext w
  refine (@Regex.mem_language_others (fun _ => none) _ w).trans (exists_congr fun c => ?_)
  simp [inComment, and_assoc]

/-- The expression of line breaks. -/
theorem languageWith_newline (embedded : String → Language Char) :
    (Regex.alt (.alt (.oneOf [.char '\n']) (.oneOf [.char '\r']))
      (.concat (.oneOf [.char '\r']) (.oneOf [.char '\n']))).languageWith embedded =
        (Tail.oneOf breaks).language := by
  rw [Regex.languageWith_alt, Regex.languageWith_alt, Regex.languageWith_concat, languageWith_char,
    languageWith_char, oneIn_eq '\n', oneIn_mul_oneOf, oneIn_eq, oneOf_add, oneOf_add]
  ext w
  simp only [mem_language_oneOf, breaks, List.mem_append, List.mem_cons, List.map_cons]
  tauto

/-! ### Reading the definitions -/

theorem meaning_define {ms : List (Definition × Language Char)} {d : Definition} {L : Language Char}
    {r : Regex} (h : Meaning ms)
    (hread : Regex.read (fun name => ms.any fun m => m.1.name = name) d.regex.toList = .ok r)
    (hL : r.languageWith (named ms) = L) : Meaning (ms ++ [(d, L)]) :=
  hL ▸ h.define (Regex.read_eq_ok_iff.1 hread)

theorem meaning_embeddedMeanings : Meaning embeddedMeanings := by
  have halpha := meaning_define (d := embeddedMeanings[0].1) (L := oneIn isLetter)
    (r := .oneOf (letters.map .char)) Meaning.nil (by decide +kernel)
    ((Regex.languageWith_chars _ letters).trans (oneIn_congr fun c => by simp [mem_letters_iff]))
  have hdigit := meaning_define (d := embeddedMeanings[1].1) (L := oneIn Char.isDigit)
    (r := .oneOf (digits.map .char)) halpha (by decide +kernel)
    ((Regex.languageWith_chars _ digits).trans (oneIn_congr fun c => by simp [mem_digits_iff]))
  exact meaning_define (d := embeddedMeanings[2].1) hdigit (by decide +kernel) (languageWith_newline _)

/-- The names that are embedded. -/
def embeddedNames : List String := ["alpha", "digit", "newline"]

theorem embeds_append {ms : List (Definition × Language Char)}
    (h : ∀ m ∈ ms, m.1.name ∉ embeddedNames) : Embeds (named (embeddedMeanings ++ ms)) := by
  have hnone {name : String} (hname : name ∈ embeddedNames) (w : List Char) :
      ¬∃ m ∈ ms, m.1.name = name ∧ w ∈ m.2 :=
    fun ⟨m, hm, heq, _⟩ => h m hm (heq ▸ hname)
  have halpha := hnone (show "alpha" ∈ embeddedNames by decide)
  have hdigit := hnone (show "digit" ∈ embeddedNames by decide)
  have hnewline := hnone (show "newline" ∈ embeddedNames by decide)
  constructor <;> ext w <;> rw [Patterns.mem_named] <;>
    simp only [List.mem_append, or_and_right, exists_or, halpha, hdigit, hnewline, or_false] <;>
    simp [embeddedMeanings]

/-- The definition embeds only what is embedded in others, and stands for these texts. -/
structure Denotes (m : Definition × Language Char) : Prop where
  name : m.1.name ∉ embeddedNames
  reads : ∃ r, Regex.read (embeddedNames.contains ·) m.1.regex.toList = .ok r ∧
    ∀ embedded, Embeds embedded → r.languageWith embedded = m.2

theorem meaning_append {ms : List (Definition × Language Char)} (h : ∀ m ∈ ms, Denotes m) :
    Meaning (embeddedMeanings ++ ms) := by
  induction ms using List.reverseRecOn with
  | nil => exact (List.append_nil embeddedMeanings).symm ▸ meaning_embeddedMeanings
  | append_singleton ms m ih =>
    obtain ⟨hms, hm⟩ := List.forall_mem_append.1 h
    obtain ⟨-, r, hread, hlanguage⟩ := hm m (List.mem_singleton_self m)
    have hembeds := embeds_append fun m hm => (hms m hm).name
    rw [← List.append_assoc]
    refine meaning_define (d := m.1) (ih hms) ?_ (hlanguage _ hembeds)
    refine Regex.read_eq_ok_iff.2 ((Regex.read_eq_ok_iff.1 hread).mono fun name hname => ?_)
    rw [List.any_append, Bool.or_eq_true]
    refine .inl ?_
    rw [List.contains_iff_mem] at hname
    revert name
    decide

theorem denotes_of_read {d : Definition} {L : Language Char} {r : Regex}
    (hname : d.name ∉ embeddedNames)
    (hread : Regex.read (embeddedNames.contains ·) d.regex.toList = .ok r)
    (hlanguage : ∀ embedded, Embeds embedded → r.languageWith embedded = L) : Denotes (d, L) :=
  ⟨hname, r, hread, hlanguage⟩

theorem denotes_tokenMeanings : ∀ m ∈ tokenMeanings, Denotes m := by
  simp only [tokenMeanings, List.forall_mem_cons, List.not_mem_nil, false_imp_iff, implies_true,
    and_true]
  refine ⟨?id, ?sep, ?op, ?lparen, ?rparen, ?multiChild, ?eol, ?blank, ?comment, ?continued⟩
  case id =>
    refine denotes_of_read
      (r := .concat (.embed "alpha") (.star (.alt (.embed "alpha") (.embed "digit"))))
      (by decide) (by decide +kernel) fun embedded h => ?_
    rw [Regex.languageWith_concat, Regex.languageWith_star, Regex.languageWith_alt,
      Regex.languageWith_embed, Regex.languageWith_embed, h.alpha, h.digit, oneIn_add]
    rfl
  case sep =>
    refine denotes_of_read (r := .concat (.oneOf [.char '-']) (.oneOf [.char '>']))
      (by decide) (by decide +kernel) fun embedded _ => ?_
    rw [Regex.languageWith_concat, languageWith_char, languageWith_char, oneIn_eq '>']
    rfl
  case op =>
    exact denotes_of_read (r := .oneOf (['*', '?', '|'].map .char))
      (by decide) (by decide +kernel) fun embedded _ => Regex.languageWith_chars _ _
  case lparen =>
    exact denotes_of_read (r := .oneOf [.char '('])
      (by decide) (by decide +kernel) fun embedded _ => languageWith_char _ _
  case rparen =>
    exact denotes_of_read (r := .oneOf [.char ')'])
      (by decide) (by decide +kernel) fun embedded _ => languageWith_char _ _
  case multiChild =>
    refine denotes_of_read (r := .concat (.concat (.concat (.oneOf [.char '[']) (.oneOf [.char '>']))
        (.oneOf [.char '1'])) (.oneOf [.char ']']))
      (by decide) (by decide +kernel) fun embedded _ => ?_
    rw [Regex.languageWith_concat, Regex.languageWith_concat, Regex.languageWith_concat,
      languageWith_char, languageWith_char, languageWith_char, languageWith_char, oneIn_eq ']',
      mul_assoc, oneIn_mul_oneOf, mul_assoc, oneIn_mul_oneOf]
    rfl
  case eol =>
    exact denotes_of_read (r := .embed "newline")
      (by decide) (by decide +kernel) fun embedded h => h.newline
  case blank =>
    refine denotes_of_read (r := .plus (.oneOf (['\t', ' '].map .char)))
      (by decide) (by decide +kernel) fun embedded _ => ?_
    rw [Regex.languageWith_plus, Regex.languageWith_chars,
      oneIn_congr (q := isBlank) fun c => by simp [isBlank, or_comm]]
    rfl
  case comment =>
    refine denotes_of_read (r := .concat (.oneOf [.char '#'])
        (.star (.oneOf (Regex.others [.char '\n', .char '\r']))))
      (by decide) (by decide +kernel) fun embedded _ => ?_
    rw [Regex.languageWith_concat, Regex.languageWith_star, languageWith_char, languageWith_comment]
    rfl
  case continued =>
    refine denotes_of_read (r := .concat (.oneOf [.char '\\']) (.embed "newline"))
      (by decide) (by decide +kernel) fun embedded h => ?_
    rw [Regex.languageWith_concat, Regex.languageWith_embed, languageWith_char, h.newline]
    rfl

/-! ## The patterns -/

/-- The definitions in order, with their languages. -/
def meanings : List (Definition × Language Char) := embeddedMeanings ++ tokenMeanings

theorem meaning_meanings : Meaning meanings := meaning_append denotes_tokenMeanings

set_option maxRecDepth 4000 in
theorem exists_definitions : ∃ text, definitions = String.ofList text ∧
    (Definitions.defineLines [] 0 (Text.lines text)).isOk = true ∧
    ((Text.lines text).mapM Definitions.parseLine).toOption.map (·.reduceOption) =
      some (meanings.map Prod.fst) :=
  ⟨_, rfl, by decide +kernel, by decide +kernel⟩

/-- The definitions of tokens compile, and the patterns are those of the definitions. -/
theorem exists_patterns : ∃ patterns', patterns = .ok (.ofPatterns patterns') ∧
    Patterns.Defined patterns' ∧ Patterns.Tells patterns' meanings := by
  obtain ⟨text, htext, hok, hparsed⟩ := exists_definitions
  obtain ⟨patterns', hlines⟩ := exists_eq_ok_of_isOk hok
  obtain ⟨found, hfound, hfold⟩ := Definitions.exists_found_of_defineLines hlines
  rw [hfound] at hparsed
  have hds : found.reduceOption = meanings.map Prod.fst := Option.some.inj hparsed
  obtain ⟨ms, hms, hmeaning, htells⟩ := Patterns.Tells.foldlM .nil .nil .nil hfold
  obtain rfl := hmeaning.unique meaning_meanings (hms.trans hds)
  refine ⟨patterns', ?_, Patterns.Defined.nil.of_foldlM hfold, htells⟩
  unfold patterns PatternSet.parse
  rw [htext, String.toList_ofList, hlines]
  rfl

theorem mem_word_of_starting {p : Char → Bool} {name : String} {tail : Tail}
    (h : ∀ c, p c = true → tail? c = some (name, tail)) (hcs : cs ∈ starting p tail) :
    cs ∈ Word name := by
  obtain ⟨c, w, rfl, hc, hw⟩ := mem_oneIn_mul.1 hcs
  exact ⟨c, tail, w, rfl, h c hc, hw⟩

theorem mem_word_of_oneIn {p : Char → Bool} {name : String}
    (h : ∀ c, p c = true → tail? c = some (name, .oneOf [[]])) (hcs : cs ∈ oneIn p) :
    cs ∈ Word name := by
  obtain ⟨c, rfl, hc⟩ := mem_oneIn.1 hcs
  exact ⟨c, _, [], rfl, h c hc, List.mem_singleton_self []⟩

/-- What a definition of a token matches is a word of its name. -/
theorem mem_word_of_mem : ∀ m ∈ tokenMeanings, ∀ w ∈ m.2, w ∈ Word m.1.name := by
  simp only [tokenMeanings, List.forall_mem_cons, List.not_mem_nil, false_imp_iff, implies_true,
    and_true]
  refine ⟨fun w => mem_word_of_starting fun c hc => if_pos hc,
    fun w => mem_word_of_starting fun c hc => ?sep, fun w => mem_word_of_oneIn fun c hc => ?op,
    fun w => mem_word_of_oneIn fun c hc => ?lparen, fun w => mem_word_of_oneIn fun c hc => ?rparen,
    fun w => mem_word_of_starting fun c hc => ?multiChild, fun w hw => ?eol,
    fun w => mem_word_of_starting fun c hc => ?blank, fun w => mem_word_of_starting fun c hc => ?comment,
    fun w => mem_word_of_starting fun c hc => ?continued⟩
  case eol =>
    rw [mem_language_oneOf, breaks, List.mem_cons, List.mem_cons, List.mem_singleton] at hw
    rcases hw with rfl | rfl | rfl
    · exact ⟨'\r', _, ['\n'], rfl, rfl, List.mem_cons_self⟩
    · exact ⟨'\r', _, [], rfl, rfl, List.mem_cons_of_mem _ List.mem_cons_self⟩
    · exact ⟨'\n', _, [], rfl, rfl, List.mem_cons_self⟩
  case op =>
    have hall : ∀ c ∈ ['*', '?', '|'], tail? c = some ("op", .oneOf [[]]) := by
      simp only [List.forall_mem_cons, List.not_mem_nil, false_imp_iff, implies_true, and_true]
      exact ⟨rfl, rfl, rfl⟩
    exact hall c (of_decide_eq_true hc)
  case blank =>
    rcases (by simpa [isBlank] using hc : c = ' ' ∨ c = '\t') with rfl | rfl <;> rfl
  all_goals
    obtain rfl := of_decide_eq_true hc
    rfl

/-- A word of a name is what one of its definitions matches. -/
theorem exists_mem_of_mem_word {name : String} (h : cs ∈ Word name) :
    ∃ m ∈ tokenMeanings, m.1.name = name ∧ cs ∈ m.2 := by
  obtain ⟨c, tail, w, rfl, htail, hw⟩ := h
  have hmem (k : Nat) (hk : k < tokenMeanings.length) : tokenMeanings[k] ∈ tokenMeanings :=
    List.getElem_mem hk
  have hstarting {p : Char → Bool} {tail : Tail} (hc : p c = true)
      (hw : w ∈ tail.language) : c :: w ∈ starting p tail := mem_oneIn_mul.2 ⟨c, w, rfl, hc, hw⟩
  have honeIn {p : Char → Bool} (hc : p c = true) (hw : w ∈ (Tail.oneOf [[]]).language) :
      c :: w ∈ oneIn p := mem_oneIn.2 ⟨c, by rw [List.mem_singleton.1 hw], hc⟩
  have hbreak {texts : List (List Char)} (hall : ∀ w ∈ texts, c :: w ∈ breaks)
      (hw : w ∈ (Tail.oneOf texts).language) : c :: w ∈ (Tail.oneOf breaks).language := hall w hw
  unfold tail? at htail
  split at htail
  · next hc =>
    cases htail
    exact ⟨_, hmem 0 (by decide), rfl, hstarting hc hw⟩
  · split at htail <;> cases htail
    · exact ⟨_, hmem 1 (by decide), rfl, hstarting rfl hw⟩
    · exact ⟨_, hmem 2 (by decide), rfl, honeIn rfl hw⟩
    · exact ⟨_, hmem 2 (by decide), rfl, honeIn rfl hw⟩
    · exact ⟨_, hmem 2 (by decide), rfl, honeIn rfl hw⟩
    · exact ⟨_, hmem 3 (by decide), rfl, honeIn rfl hw⟩
    · exact ⟨_, hmem 4 (by decide), rfl, honeIn rfl hw⟩
    · exact ⟨_, hmem 5 (by decide), rfl, hstarting rfl hw⟩
    · exact ⟨_, hmem 6 (by decide), rfl, hbreak (by decide) hw⟩
    · exact ⟨_, hmem 6 (by decide), rfl, hbreak (by decide) hw⟩
    · exact ⟨_, hmem 7 (by decide), rfl, hstarting rfl hw⟩
    · exact ⟨_, hmem 7 (by decide), rfl, hstarting rfl hw⟩
    · exact ⟨_, hmem 8 (by decide), rfl, hstarting rfl hw⟩
    · exact ⟨_, hmem 9 (by decide), rfl, hstarting rfl hw⟩

theorem offers_and_mem_named_iff {name : String} :
    Offers meanings name ∧ cs ∈ named meanings name ↔ cs ∈ Word name := by
  have hembedded : ∀ m ∈ embeddedMeanings,
      (meanings.find? fun m' => m'.1.name = m.1.name).map (·.1.internal) ≠ some false := by
    decide +kernel
  have htoken : ∀ m ∈ tokenMeanings,
      (meanings.find? fun m' => m'.1.name = m.1.name).map (·.1.internal) = some false := by
    decide +kernel
  constructor
  · rintro ⟨hoffers, m, hm, rfl, hcs⟩
    rcases List.mem_append.1 hm with hm | hm
    · exact absurd hoffers (hembedded m hm)
    · exact mem_word_of_mem m hm cs hcs
  · intro h
    obtain ⟨m, hm, rfl, hcs⟩ := exists_mem_of_mem_word h
    exact ⟨htoken m hm, m, List.mem_append_right _ hm, rfl, hcs⟩

/-- The patterns match just the words, under their names. -/
theorem names_iff_mem_word {words : PatternSet} (h : patterns = .ok words) {text name : String} :
    words.Names text name ↔ text.toList ∈ Word name := by
  obtain ⟨patterns', hpatterns, hdefined, htells⟩ := exists_patterns
  obtain rfl := Except.ok.inj (h.symm.trans hpatterns)
  rw [PatternSet.names_iff_of_tells hdefined htells (.inl ⟨definitions, h⟩), offers_and_mem_named_iff]

end Grammar.Vocabulary

end Predictive
