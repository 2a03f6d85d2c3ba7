import Predictive.Proofs.Layers
import Predictive.Proofs.Parsing

/-!
# Grammar texts that are read

The rules of a grammar text are read if and only if its tokens are ends of lines and at least one
block, whose right-hand side is a layered expression (`Grammar.parse_reads_iff`). A text that is not
read is refused for a fault of its syntax, and one that is read is refused for left recursion or
ambiguity only.
-/

namespace Predictive.Grammar

/-! ## The syntax -/

/-- The signs of right-hand sides, and the tokens of their operands: names, and the empty group. -/
def signs : Signs Token where
  bar t := t.name = "op" ∧ t.lexeme = "|"
  mark t := t.name = "op" ∧ (t.lexeme = "*" ∨ t.lexeme = "?")
  opening t := t.name = "lparen"
  closing t := t.name = "rparen"
  operand s := (∃ t, s = [t] ∧ t.name = "id") ∨
    ∃ o c, s = [o, c] ∧ o.name = "lparen" ∧ c.name = "rparen"

/-- The tokens of a block: a name, `->`, a right-hand side, and perhaps the marker `[>1]`. -/
inductive IsBlock : List Token → Prop
  | plain {head sep : Token} {s : List Token} : head.name = "id" → sep.name = "sep" →
      Layered signs .alternation s → IsBlock (head :: sep :: s)
  | marked {head sep mark : Token} {s : List Token} : head.name = "id" → sep.name = "sep" →
      Layered signs .alternation s → mark.name = "multi_child" →
      IsBlock (head :: sep :: (s ++ [mark]))

/-- The tokens are ends of lines and a number of blocks. Each block goes to the end of its line or of
the input. -/
inductive Lines : List Token → Nat → Prop
  | nil : Lines [] 0
  | eol {eol : Token} {ts : List Token} {n : Nat} : eol.name = "eol" → Lines ts n →
      Lines (eol :: ts) n
  | block {s ts : List Token} {eol : Token} {n : Nat} : IsBlock s → eol.name = "eol" → Lines ts n →
      Lines (s ++ eol :: ts) (n + 1)
  | last {s : List Token} : IsBlock s → Lines s 1

/-! ## The syntax and the reader -/

variable {s ts : List Token} {l : Regex.Level}

theorem Expr.Written.layered {a : Expr} (h : a.Written l s) : Layered signs l s := by
  have hclosed := closed_layered signs
  induction h with
  | alt hname hlexeme _ _ ihleft ihright => exact hclosed.alt ihleft ⟨hname, hlexeme⟩ ihright
  | sequence _ ih => exact hclosed.sequence ih
  | concat _ _ ihleft ihright => exact hclosed.concat ihleft ihright
  | repetition _ ih => exact hclosed.repetition ih
  | star hname hlexeme _ ih => exact hclosed.marked ih ⟨hname, .inl hlexeme⟩
  | optional hname hlexeme _ ih => exact hclosed.marked ih ⟨hname, .inr hlexeme⟩
  | atom _ ih => exact hclosed.atom ih
  | @name t hname => exact hclosed.operand (.inl ⟨t, rfl, hname⟩)
  | @empty o c ho hc => exact hclosed.operand (.inr ⟨o, c, rfl, ho, hc⟩)
  | group ho hc _ ih => exact hclosed.group ho ih hc

/-- The tokens that write some right-hand side are closed under the rules of layered ones. -/
theorem closed_written : Closed signs fun l s => ∃ a, Expr.Written l s a where
  alt h hc ht := by
    obtain ⟨a, ha⟩ := h
    obtain ⟨b, hb⟩ := ht
    exact ⟨_, .alt hc.1 hc.2 ha hb⟩
  sequence h := h.imp fun _ => .sequence
  concat h ht := by
    obtain ⟨a, ha⟩ := h
    obtain ⟨b, hb⟩ := ht
    exact ⟨_, ha.concat hb⟩
  repetition h := h.imp fun _ => .repetition
  marked h hc := by
    obtain ⟨a, ha⟩ := h
    obtain ⟨hname, hlexeme | hlexeme⟩ := hc
    · exact ⟨_, .star hname hlexeme ha⟩
    · exact ⟨_, .optional hname hlexeme ha⟩
  atom h := h.imp fun _ => .atom
  operand h := by
    rcases h with ⟨t, rfl, hname⟩ | ⟨o, c, rfl, ho, hc⟩
    · exact ⟨_, .name hname⟩
    · exact ⟨_, .empty ho hc⟩
  group ho h hc := by
    obtain ⟨a, ha⟩ := h
    exact ⟨_, .group ho hc ha⟩

theorem exists_written_iff : (∃ a, Expr.Written l s a) ↔ Layered signs l s :=
  ⟨fun ⟨_, h⟩ => h.layered, Layered.of_closed closed_written⟩

theorem exists_writesBlocks_of_lines {n : Nat} (h : Lines ts n) :
    ∃ bs, WritesBlocks ts bs ∧ bs.length = n := by
  induction h with
  | nil => exact ⟨[], .nil, rfl⟩
  | eol heol _ ih =>
    obtain ⟨bs, hbs, rfl⟩ := ih
    exact ⟨bs, .emptyLine heol hbs, rfl⟩
  | block hs heol _ ih =>
    obtain ⟨bs, hbs, rfl⟩ := ih
    cases hs with
    | plain hhead hsep hbody =>
      obtain ⟨body, hbody⟩ := exists_written_iff.2 hbody
      exact ⟨_ :: bs, .block hhead hsep hbody (.line heol) hbs, rfl⟩
    | marked hhead hsep hbody hmark =>
      obtain ⟨body, hbody⟩ := exists_written_iff.2 hbody
      have hblocks := WritesBlocks.block hhead hsep hbody (.markedLine hmark heol) hbs
      exact ⟨_ :: bs, by simpa using hblocks, rfl⟩
  | last hs =>
    cases hs with
    | plain hhead hsep hbody =>
      obtain ⟨body, hbody⟩ := exists_written_iff.2 hbody
      have hblocks := WritesBlocks.block hhead hsep hbody .atEnd .nil
      exact ⟨[_], by simpa using hblocks, rfl⟩
    | marked hhead hsep hbody hmark =>
      obtain ⟨body, hbody⟩ := exists_written_iff.2 hbody
      exact ⟨[_], .block hhead hsep hbody (.markedAtEnd hmark) .nil, rfl⟩

theorem lines_of_writesBlocks {bs : List Block} (h : WritesBlocks ts bs) : Lines ts bs.length := by
  induction h with
  | nil => exact .nil
  | emptyLine heol _ ih => exact .eol heol ih
  | @block head sep s ending ts body multiChild bs hhead hsep hbody hending hrest ih =>
    have hplain : IsBlock (head :: sep :: s) := .plain hhead hsep hbody.layered
    have hmarked {mark : Token} (hmark : mark.name = "multi_child") :
        IsBlock (head :: sep :: (s ++ [mark])) := .marked hhead hsep hbody.layered hmark
    cases hending with
    | line heol => exact .block hplain heol ih
    | markedLine hmark heol => simpa using Lines.block (hmarked hmark) heol ih
    | atEnd =>
      cases hrest
      simpa using Lines.last hplain
    | markedAtEnd hmark =>
      cases hrest
      exact .last (hmarked hmark)

/-- Tokens write as many blocks as there are among their lines. -/
theorem lines_iff {n : Nat} : Lines ts n ↔ ∃ bs, WritesBlocks ts bs ∧ bs.length = n := by
  constructor
  · exact exists_writesBlocks_of_lines
  · rintro ⟨bs, hbs, rfl⟩
    exact lines_of_writesBlocks hbs

/-! ## Faults of the syntax -/

/-- The fault is one of the syntax of rules. -/
def Fault.isSyntax : Fault → Bool
  | noRules | missingRuleName | missingSeparator | emptyRule _ | missingOperand _ | unopenedGroup
  | unterminatedGroup | misplacedMultiChild | unexpectedToken _ => true
  | leftRecursion _ | ambiguous _ _ | tokenize _ | vocabulary _ => false

/-- If the computation fails, then for a fault of the syntax. -/
def FailsOnSyntax {α : Type} (x : Except Error α) : Prop :=
  ∀ e, x = .error e → e.fault.isSyntax = true

namespace FailsOnSyntax

variable {α β : Type}

theorem ok (a : α) : FailsOnSyntax (.ok a) := nofun

theorem error {e : Error} (h : e.fault.isSyntax = true) :
    FailsOnSyntax (.error e : Except Error α) := by
  intro e' he
  cases he
  exact h

theorem bind {x : Except Error α} {f : α → Except Error β} (hx : FailsOnSyntax x)
    (hf : ∀ a, FailsOnSyntax (f a)) : FailsOnSyntax (x >>= f) := by
  intro e he
  rcases bind_eq_error_iff.1 he with he | ⟨a, -, he⟩
  · exact hx e he
  · exact hf a e he

theorem foldlM {f : β → α → Except Error β} (hf : ∀ b a, FailsOnSyntax (f b a)) (as : List α)
    (b : β) : FailsOnSyntax (as.foldlM f b) := by
  induction as generalizing b with
  | nil => exact ok b
  | cons a as ih =>
    rw [List.foldlM_cons]
    exact (hf b a).bind ih

end FailsOnSyntax

open FailsOnSyntax (ok error)

variable {line : Nat} {stack : Precedence.Stack Expr Operator}

theorem failsOnSyntax_apply (line : Nat) (op : Operator) (operands : List Expr) :
    FailsOnSyntax ((algebra line).apply op operands) := by
  show FailsOnSyntax (op.apply line operands)
  unfold Operator.apply
  split
  case h_5 => exact error rfl
  all_goals exact ok _

theorem failsOnSyntax_reduce (line least : Nat) (operators : List Operator) (operands : List Expr) :
    FailsOnSyntax ((algebra line).reduce least operators operands) := by
  induction operators generalizing operands with
  | nil => exact ok _
  | cons op operators ih =>
    unfold Precedence.Algebra.reduce
    split
    · exact ok _
    · exact (failsOnSyntax_apply line op operands).bind ih

theorem failsOnSyntax_addOperator (line : Nat) (op : Operator) :
    FailsOnSyntax (stack.addOperator (algebra line) op) :=
  (failsOnSyntax_reduce line _ _ _).bind fun _ => ok _

theorem failsOnSyntax_settle (line : Nat) (f : Precedence.Frame Expr Operator) :
    FailsOnSyntax ((algebra line).settle f) :=
  .foldlM (fun operands op => failsOnSyntax_apply line op operands) _ _

theorem failsOnSyntax_leave (line : Nat) : FailsOnSyntax (stack.leave (algebra line)) := by
  refine (failsOnSyntax_settle line stack.inner).bind fun operands => ?_
  split
  · exact error rfl
  · exact ok _

theorem failsOnSyntax_complete (line : Nat) : FailsOnSyntax (stack.complete (algebra line)) := by
  refine (failsOnSyntax_settle line stack.inner).bind fun operands => ?_
  split
  · exact ok _
  · exact error rfl

namespace OpenBlock

variable (b : OpenBlock) (kind : Option Vocabulary.Kind) (t : Token) (multiChild : Bool)

theorem failsOnSyntax_join : FailsOnSyntax (b.join kind) := by
  unfold join
  split
  · exact (failsOnSyntax_addOperator b.lastLine .concat).bind fun _ => ok _
  · exact ok _

theorem failsOnSyntax_place : FailsOnSyntax (b.place kind t) := by
  unfold place
  split
  · exact ok _
  · exact failsOnSyntax_addOperator t.line _
  · exact ok _
  · exact (failsOnSyntax_leave t.line).bind fun _ => ok _
  · exact error rfl

theorem failsOnSyntax_feed : FailsOnSyntax (b.feed kind t) :=
  (b.failsOnSyntax_place kind t).bind fun _ => ok _

theorem failsOnSyntax_close : FailsOnSyntax (b.close multiChild) := by
  refine (failsOnSyntax_complete b.line).bind fun operands => ?_
  split
  · exact error rfl
  · exact ok _

end OpenBlock

namespace BlockReader

theorem failsOnSyntax_close (r : BlockReader) (b : OpenBlock) (multiChild : Bool) :
    FailsOnSyntax (r.close b multiChild) :=
  (b.failsOnSyntax_close multiChild).bind fun _ => ok _

theorem failsOnSyntax_feed (r : BlockReader) (t : Token) : FailsOnSyntax (r.feed t) := by
  unfold feed
  dsimp only
  split
  · split
    · exact ok _
    · split
      · exact ok _
      · exact error rfl
  · split
    · exact ok _
    · exact error rfl
  · next b _ =>
    refine (b.failsOnSyntax_join _).bind fun b => ?_
    split
    · exact r.failsOnSyntax_close b false
    · split
      · exact ok _
      · exact (b.failsOnSyntax_feed _ t).bind fun _ => ok _
  · next b _ =>
    split
    · exact r.failsOnSyntax_close b true
    · exact error rfl

theorem failsOnSyntax_finish (r : BlockReader) (line : Nat) : FailsOnSyntax (r.finish line) := by
  unfold finish
  split
  · exact ok _
  · exact error rfl
  · exact (r.failsOnSyntax_close _ false).bind fun _ => ok _
  · exact (r.failsOnSyntax_close _ true).bind fun _ => ok _

/-- Reading tokens up to the end of the input fails for faults of the syntax only. -/
theorem failsOnSyntax_read (tokens : List Token) (eof : Token) :
    FailsOnSyntax (read tokens (.ok eof)) :=
  (FailsOnSyntax.foldlM failsOnSyntax_feed tokens {}).bind fun r => r.failsOnSyntax_finish eof.line

end BlockReader

/-! ## Reading a text -/

variable {text : String} {tokens : List Token}

/-- The text is cut into the tokens by the patterns of grammar texts. -/
def Tokenizes (text : String) (tokens : List Token) : Prop :=
  ∃ words, Vocabulary.patterns = .ok words ∧ (Tokenizer.ofText words text).tokenize.1 = .ok tokens

theorem Tokenizes.exists_readBlocks_eq (h : Tokenizes text tokens) :
    ∃ eof, readBlocks text = BlockReader.read tokens (.ok eof) ∧
      ∀ bs, readBlocks text = .ok bs ↔ WritesBlocks tokens bs := by
  obtain ⟨words, hwords, htokens⟩ := h
  obtain ⟨eof, hending, rfl⟩ := map_eq_ok_iff.1 htokens
  have hread : readBlocks text =
      BlockReader.read (Tokenizer.ofText words text).collect.tokens (.ok eof) := by
    rw [← hending, readBlocks, hwords]
    rfl
  refine ⟨eof, hread, fun bs => ?_⟩
  rw [hread]
  exact BlockReader.read_eq_ok_iff (fun t ht => Vocabulary.lexeme_of_op hwords ht) eof

/-- The rules are read just if there is a block, and else there is a fault of the syntax. -/
theorem Tokenizes.readRules_cases (h : Tokenizes text tokens) (config : Config) :
    ((∃ n, 0 < n ∧ Lines tokens n) ∧ ∃ rules, readRules text config = .ok rules) ∨
      (¬ ∃ n, 0 < n ∧ Lines tokens n) ∧
        ∃ e, readRules text config = .error e ∧ e.fault.isSyntax = true := by
  obtain ⟨eof, hread, hblocks⟩ := h.exists_readBlocks_eq
  cases hresult : readBlocks text with
  | error e =>
    refine .inr ⟨?_, e, by rw [readRules, hresult]; rfl, ?_⟩
    · rintro ⟨n, -, hlines⟩
      obtain ⟨bs, hbs, -⟩ := lines_iff.1 hlines
      cases hresult.symm.trans ((hblocks bs).2 hbs)
    · exact BlockReader.failsOnSyntax_read tokens eof e (hread.symm.trans hresult)
  | ok blocks =>
    cases blocks with
    | nil =>
      refine .inr ⟨?_, _, by rw [readRules, hresult]; rfl, rfl⟩
      rintro ⟨n, hn, hlines⟩
      obtain ⟨bs, hbs, rfl⟩ := lines_iff.1 hlines
      cases hresult.symm.trans ((hblocks bs).2 hbs)
      exact Nat.lt_irrefl 0 hn
    | cons b bs =>
      refine .inl ⟨⟨bs.length + 1, Nat.succ_pos _, ?_⟩, _, by rw [readRules, hresult]; rfl⟩
      exact lines_of_writesBlocks ((hblocks _).1 hresult)

/-- The rules of the text were read: it is compiled, or its rules are left-recursive or ambiguous. -/
def PastReading (compiled : Except Error Grammar) : Prop :=
  (∃ g, compiled = .ok g) ∨
    (∃ line rule, compiled = .error { line, fault := .leftRecursion rule }) ∨
      ∃ line rule token, compiled = .error { line, fault := .ambiguous rule token }

theorem pastReading_ofRuleSet (rules : RuleSet) : PastReading (ofRuleSet rules) := by
  unfold ofRuleSet
  split
  · exact .inr (.inl ⟨_, _, rfl⟩)
  · dsimp only
    split
    · exact .inr (.inr ⟨_, _, _, rfl⟩)
    · exact .inl ⟨_, rfl⟩

theorem not_pastReading_of_isSyntax {e : Error} (h : e.fault.isSyntax = true) :
    ¬ PastReading (.error e) := by
  rintro (⟨g, hg⟩ | ⟨line, rule, hrule⟩ | ⟨line, rule, token, hrule⟩)
  · cases hg
  · cases hrule
    cases h
  · cases hrule
    cases h

/-- For every grammar text that is cut into tokens: its rules are read if and only if the tokens are
lines with at least one block, and else it is refused for a fault of the syntax. -/
theorem parse_reads_iff (h : Tokenizes text tokens) (config : Config) :
    (PastReading (parse text config) ↔ ∃ n, 0 < n ∧ Lines tokens n) ∧
      ((¬ ∃ n, 0 < n ∧ Lines tokens n) →
        ∃ e, parse text config = .error e ∧ e.fault.isSyntax = true) := by
  rcases h.readRules_cases config with ⟨hlines, rules, hrules⟩ | ⟨hlines, e, he, hfault⟩
  · have hpast : PastReading (parse text config) := by
      rw [parse, hrules]
      exact pastReading_ofRuleSet rules
    exact ⟨iff_of_true hpast hlines, fun hnone => absurd hlines hnone⟩
  · have hparse : parse text config = .error e := by
      rw [parse, he]
      rfl
    refine ⟨iff_of_false ?_ hlines, fun _ => ⟨e, hparse, hfault⟩⟩
    rw [hparse]
    exact not_pastReading_of_isSyntax hfault

/-- The text of sums is cut into lines with two blocks, and so its rules are read. -/
theorem parse_reads_iff_sums : ∃ tokens, Tokenizes sums tokens ∧ Lines tokens sumsBlocks.length ∧
    PastReading (parse sums {}) := by
  obtain ⟨words, eof, hwords, hending, hblocks⟩ := exists_tokens_of_readBlocks readBlocks_sums
  have htokens : Tokenizes sums (Tokenizer.ofText words sums).collect.tokens :=
    ⟨words, hwords, map_eq_ok_iff.2 ⟨eof, hending, rfl⟩⟩
  have hlines := lines_of_writesBlocks ((hblocks sumsBlocks).2 rfl)
  exact ⟨_, htokens, hlines, (parse_reads_iff htokens {}).1.2 ⟨_, by decide, hlines⟩⟩

end Predictive.Grammar
