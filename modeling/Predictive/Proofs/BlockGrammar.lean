import Predictive.Grammar.Block
import Predictive.Proofs.RegexGrammar

/-!
# The grammar of rule blocks

`Expr.Written` says which tokens write which right-hand side, on the same levels as regular
expressions: alternatives of sequences of repeated atoms. `WritesBlocks` says which tokens write which
blocks. The reader accepts exactly these tokens, and gives the blocks that they write
(`BlockReader.read_eq_ok_iff`).
-/

namespace Predictive.Grammar

open Precedence (Interpretation)

/-! ## The grammar -/

/-- The tokens write the right-hand side at a level of the grammar. -/
inductive Expr.Written : Regex.Level → List Token → Expr → Prop
  | alt {s t : List Token} {bar : Token} {a b : Expr} : bar.name = "op" → bar.lexeme = "|" →
      Written .alternation s a → Written .sequence t b →
      Written .alternation (s ++ bar :: t) (.alt a b)
  | sequence {s : List Token} {a : Expr} : Written .sequence s a → Written .alternation s a
  | concat {s t : List Token} {a b : Expr} : Written .sequence s a → Written .repetition t b →
      Written .sequence (s ++ t) (.concat a b)
  | repetition {s : List Token} {a : Expr} : Written .repetition s a → Written .sequence s a
  | star {s : List Token} {mark : Token} {a : Expr} : mark.name = "op" → mark.lexeme = "*" →
      Written .repetition s a → Written .repetition (s ++ [mark]) (.star a)
  | optional {s : List Token} {mark : Token} {a : Expr} : mark.name = "op" → mark.lexeme = "?" →
      Written .repetition s a → Written .repetition (s ++ [mark]) (.optional a)
  | atom {s : List Token} {a : Expr} : Written .atom s a → Written .repetition s a
  | name {t : Token} : t.name = "id" → Written .atom [t] (.name t.lexeme)
  | empty {opening closing : Token} : opening.name = "lparen" → closing.name = "rparen" →
      Written .atom [opening, closing] .empty
  | group {s : List Token} {opening closing : Token} {a : Expr} : opening.name = "lparen" →
      closing.name = "rparen" → Written .alternation s a →
      Written .atom (opening :: s ++ [closing]) (.group a)

/-- The tokens that end a block, whether the marker `[>1]` is among them, and the tokens of the blocks
that follow. -/
inductive BlockEnd : List Token → Bool → List Token → Prop
  | atEnd : BlockEnd [] false []
  | line {eol : Token} {ts : List Token} : eol.name = "eol" → BlockEnd (eol :: ts) false ts
  | markedAtEnd {mark : Token} : mark.name = "multi_child" → BlockEnd [mark] true []
  | markedLine {mark eol : Token} {ts : List Token} : mark.name = "multi_child" →
      eol.name = "eol" → BlockEnd (mark :: eol :: ts) true ts

/-- The tokens write the blocks, with empty lines between them. -/
inductive WritesBlocks : List Token → List Block → Prop
  | nil : WritesBlocks [] []
  | emptyLine {eol : Token} {ts : List Token} {bs : List Block} : eol.name = "eol" →
      WritesBlocks ts bs → WritesBlocks (eol :: ts) bs
  | block {head sep : Token} {s ending ts : List Token} {body : Expr} {multiChild : Bool}
      {bs : List Block} : head.name = "id" → sep.name = "sep" → body.Written .alternation s →
      BlockEnd ending multiChild ts → WritesBlocks ts bs →
      WritesBlocks (head :: sep :: (s ++ ending))
        ({ name := head.lexeme, body, multiChild, line := head.line } :: bs)

theorem BlockEnd.suffix {ending rest : List Token} {multiChild : Bool}
    (h : BlockEnd ending multiChild rest) : rest <:+ ending := by
  cases h with
  | atEnd => exact List.suffix_rfl
  | line => exact List.suffix_cons _ _
  | markedAtEnd => exact List.nil_suffix
  | markedLine => exact ⟨[_, _], rfl⟩

/-- A block is named by a token, and tokens write its right-hand side. -/
theorem WritesBlocks.exists_of_mem {tokens : List Token} {blocks : List Block}
    (h : WritesBlocks tokens blocks) {b : Block} (hb : b ∈ blocks) :
    ∃ head ∈ tokens, ∃ s, s ⊆ tokens ∧ head.name = "id" ∧ head.lexeme = b.name ∧
      b.body.Written .alternation s := by
  induction h with
  | nil => cases hb
  | emptyLine _ _ ih =>
    obtain ⟨head, hhead, s, hs, h⟩ := ih hb
    exact ⟨head, List.mem_cons_of_mem _ hhead, s, List.subset_cons_of_subset _ hs, h⟩
  | @block head sep s ending ts body multiChild bs hname _ hbody hending _ ih =>
    have hsuffix : ts <:+ head :: sep :: (s ++ ending) :=
      hending.suffix.trans ⟨head :: sep :: s, by simp⟩
    rcases List.mem_cons.1 hb with rfl | hb
    · exact ⟨head, List.mem_cons_self, s, fun t ht => by simp [ht], hname, rfl, hbody⟩
    · obtain ⟨head', hhead, s', hs, h⟩ := ih hb
      exact ⟨head', hsuffix.subset hhead, s', List.Subset.trans hs hsuffix.subset, h⟩

/-! ## Parts of right-hand sides -/

/-- What the operators and groups of right-hand sides stand for. -/
def interpretation : Interpretation (algebra 0) where
  meaning
    | .concat => .between .concat
    | .alt => .between .alt
    | .star => .after .star
    | .optional => .after .optional
  close
    | [] => .ok [.empty]
    | a :: rest => .ok (.group a :: rest)
  top := 3
  precedence_after {op f} h := by cases op <;> first | rfl | cases h
  precedence_between {op f} h := by cases op <;> first | decide | cases h
  apply_after_iff {op f operands result} h := by
    cases op <;> cases h <;> cases operands <;> simp [algebra, Operator.apply, eq_comm]
  apply_between_iff {op f operands result} h := by
    cases op <;> cases h <;> rcases operands with _ | ⟨b, _ | ⟨a, rest⟩⟩ <;>
      simp [algebra, Operator.apply, eq_comm]
  close_nil h := ⟨_, (Except.ok.inj h).symm⟩
  close_singleton h := ⟨_, (Except.ok.inj h).symm⟩

/-- A part of a right-hand side, as it is written. -/
inductive Chunk : List Token → Precedence.Item Expr Operator → Prop
  | name {t : Token} : t.name = "id" → Chunk [t] (.operand (.name t.lexeme))
  | star {t : Token} : t.name = "op" → t.lexeme = "*" → Chunk [t] (.operator .star)
  | optional {t : Token} : t.name = "op" → t.lexeme = "?" → Chunk [t] (.operator .optional)
  | alt {t : Token} : t.name = "op" → t.lexeme = "|" → Chunk [t] (.operator .alt)
  | openGroup {t : Token} : t.name = "lparen" → Chunk [t] .openGroup
  | closeGroup {t : Token} : t.name = "rparen" → Chunk [t] .closeGroup

/-- The name of the tokens of a kind. -/
def Vocabulary.Kind.name : Vocabulary.Kind → String
  | id => "id"
  | sep => "sep"
  | op => "op"
  | lparen => "lparen"
  | rparen => "rparen"
  | multiChild => "multi_child"
  | eol => "eol"

theorem Vocabulary.Kind.ofName?_eq_some_iff {name : String} {kind : Vocabulary.Kind} :
    Vocabulary.Kind.ofName? name = some kind ↔ name = kind.name := by
  constructor
  · intro h
    unfold Vocabulary.Kind.ofName? at h
    repeat' split at h
    all_goals cases h
    all_goals assumption
  · rintro rfl
    cases kind <;> rfl

/-! ## One token -/

theorem agrees_algebra (line line' : Nat) : (algebra line).Agrees (algebra line') where
  precedence_eq := rfl
  apply_iff {op operands result} := by
    cases op <;> rcases operands with _ | ⟨b, _ | ⟨a, rest⟩⟩ <;> simp [algebra, Operator.apply]

variable {t : Token} {item : Precedence.Item Expr Operator}

theorem Chunk.exists_eq_singleton {s : List Token} (h : Chunk s item) : ∃ t, s = [t] := by
  cases h <;> exact ⟨_, rfl⟩

theorem Chunk.beginsOperand_eq (h : Chunk [t] item) :
    (Vocabulary.Kind.ofName? t.name).any (·.beginsOperand) = Interpretation.begins item := by
  cases h with
  | name h | star h | optional h | alt h | openGroup h | closeGroup h =>
    rw [h]
    rfl

theorem Chunk.completesOperand_eq (h : Chunk [t] item) :
    (Vocabulary.Kind.ofName? t.name).any (completesOperand · t.lexeme) =
      interpretation.completes item := by
  cases h with
  | name h | openGroup h | closeGroup h =>
    rw [h]
    rfl
  | star h hlexeme | optional h hlexeme | alt h hlexeme =>
    rw [h, hlexeme]
    rfl

namespace OpenBlock

variable {b b' : OpenBlock} {block : Block} {multiChild : Bool}

theorem place_eq_ok_iff (h : Chunk [t] item) {stack : Precedence.Stack Expr Operator} :
    b.place (Vocabulary.Kind.ofName? t.name) t = .ok stack ↔
      interpretation.feed b.stack item = .ok stack := by
  cases h with
  | name h | openGroup h =>
    rw [h]
    rfl
  | star h hlexeme | optional h hlexeme | alt h hlexeme =>
    rw [h]
    show b.stack.addOperator (algebra t.line) (.ofLexeme t.lexeme) = .ok stack ↔ _
    rw [hlexeme]
    exact (agrees_algebra t.line 0).addOperator_iff
  | closeGroup h =>
    have hpush (inner : List Expr) (rest : Precedence.Stack Expr Operator) :
        (pure (pushGroup rest inner) : Except Error _) = .ok stack ↔
          (interpretation.close inner >>= fun operands => pure (rest.addOperands operands)) =
            .ok stack := by
      cases inner <;> rfl
    rw [h]
    refine bind_eq_ok_iff.trans (Iff.trans ?_ bind_eq_ok_iff.symm)
    simp only [Prod.exists, (agrees_algebra t.line 0).leave_iff, hpush]

/-- Reading a token puts it on the stack, where it is joined to the operand before it if it begins
one. -/
theorem join_feed_eq_ok_iff (h : Chunk [t] item) :
    (b.join (Vocabulary.Kind.ofName? t.name) >>= fun b => b.feed (Vocabulary.Kind.ofName? t.name) t)
        = .ok b' ↔
      ∃ stack, interpretation.feedJoined .concat b.afterOperand b.stack item = .ok stack ∧
        { b with
          stack, lastLine := t.line, afterOperand := interpretation.completes item } = b' := by
  have hfeed (b b' : OpenBlock) : b.feed (Vocabulary.Kind.ofName? t.name) t = .ok b' ↔
      ∃ stack, interpretation.feed b.stack item = .ok stack ∧ { b with
        stack, lastLine := t.line, afterOperand := interpretation.completes item } = b' := by
    simp only [feed, bind_eq_ok_iff, place_eq_ok_iff h, pure_eq_ok_iff, h.completesOperand_eq]
  unfold join Interpretation.feedJoined
  rw [h.beginsOperand_eq]
  by_cases hjoin : b.afterOperand = true ∧ Interpretation.begins item = true
  · rw [if_pos hjoin, if_pos (Bool.and_eq_true_iff.2 hjoin)]
    simp only [bind_eq_ok_iff, pure_eq_ok_iff, hfeed, (agrees_algebra b.lastLine 0).addOperator_iff]
    constructor
    · rintro ⟨_, ⟨joined, hjoined, rfl⟩, stack, hstack, rfl⟩
      exact ⟨stack, ⟨joined, hjoined, hstack⟩, rfl⟩
    · rintro ⟨stack, ⟨joined, hjoined, hstack⟩, rfl⟩
      exact ⟨_, ⟨joined, hjoined, rfl⟩, stack, hstack, rfl⟩
  · rw [if_neg hjoin, if_neg (fun hand => hjoin (Bool.and_eq_true_iff.1 hand))]
    exact hfeed b b'

theorem close_eq_ok_iff : b.close multiChild = .ok block ↔
    ∃ body others, b.stack.complete (algebra 0) = .ok (body :: others) ∧
      block = { name := b.name, body, multiChild, line := b.line } := by
  unfold close
  simp only [bind_eq_ok_iff, (agrees_algebra b.line 0).complete_iff]
  constructor
  · rintro ⟨operands, hcomplete, h⟩
    cases operands with
    | nil => cases h
    | cons body others => exact ⟨body, others, hcomplete, (Except.ok.inj h).symm⟩
  · rintro ⟨body, others, hcomplete, rfl⟩
    exact ⟨_, hcomplete, rfl⟩

end OpenBlock

/-! ## Right-hand sides -/

open Precedence.Interpretation (Spelled)

theorem Expr.Written.looser {m n : Nat} (hmn : m ≤ n) {s : List Token} {a : Expr}
    (h : a.Written (.ofNat n) s) : a.Written (.ofNat m) s := by
  induction hmn with
  | refl => exact h
  | @step n _ ih =>
    refine ih ?_
    match n with
    | 0 => exact h
    | 1 => exact .sequence h
    | 2 => exact .repetition h
    | 3 => exact .atom h
    | _ + 4 => exact h

/-- What right-hand sides are built of is written at the levels of the grammar. -/
theorem writes : interpretation.Writes .concat Chunk fun n s a => a.Written (.ofNat n) s where
  operand h := by
    cases h with
    | name h => exact .name h
  hollow hopen hclosing hclose := by
    cases hopen
    cases hclosing
    cases hclose
    exact .empty ‹_› ‹_›
  group hopen hinner hclosing hclose := by
    cases hopen
    cases hclosing
    cases hclose
    exact .group ‹_› ‹_› hinner
  after hwritten h hop := by
    cases h with
    | star hname hlexeme =>
      cases hop
      exact .star hname hlexeme hwritten
    | optional hname hlexeme =>
      cases hop
      exact .optional hname hlexeme hwritten
    | alt => cases hop
  between hleft h hright hop := by
    cases h with
    | alt hname hlexeme =>
      cases hop
      exact .alt hname hlexeme hleft hright
    | star | optional => cases hop
  juxtaposed hleft hright hop := by
    cases hop
    exact .concat hleft hright
  looser hmn h := h.looser hmn

/-- What is written is spelled by the parts of a right-hand side. -/
theorem exists_expression {l : Regex.Level} {s : List Token} {a : Expr} (h : a.Written l s) :
    ∃ items, Spelled Chunk items s ∧ interpretation.Expression .concat l.rank items a := by
  induction h with
  | alt hname hlexeme _ _ ihleft ihright =>
    obtain ⟨left, hs, hleft⟩ := ihleft
    obtain ⟨right, ht, hright⟩ := ihright
    have hop : interpretation.meaning .alt = .between .alt := rfl
    exact ⟨_, hs.append (.cons (.alt hname hlexeme) ht), .between hop hleft hright⟩
  | concat _ _ ihleft ihright =>
    obtain ⟨left, hs, hleft⟩ := ihleft
    obtain ⟨right, ht, hright⟩ := ihright
    have hop : interpretation.meaning .concat = .between .concat := rfl
    exact ⟨_, hs.append ht, .juxtaposed hop hleft hright⟩
  | sequence _ ih | repetition _ ih | atom _ ih =>
    obtain ⟨items, hs, hitems⟩ := ih
    exact ⟨items, hs, hitems.looser (by decide)⟩
  | star hname hlexeme _ ih =>
    obtain ⟨items, hs, hitems⟩ := ih
    have hop : interpretation.meaning .star = .after .star := rfl
    exact ⟨_, hs.append (.singleton (.star hname hlexeme)), .after hop hitems⟩
  | optional hname hlexeme _ ih =>
    obtain ⟨items, hs, hitems⟩ := ih
    have hop : interpretation.meaning .optional = .after .optional := rfl
    exact ⟨_, hs.append (.singleton (.optional hname hlexeme)), .after hop hitems⟩
  | name h => exact ⟨_, .singleton (.name h), .operand _⟩
  | empty hopening hclosing =>
    exact ⟨_, .cons (Chunk.openGroup hopening) (.singleton (Chunk.closeGroup hclosing)), .hollow rfl⟩
  | group hopening hclosing _ ih =>
    obtain ⟨items, hs, hitems⟩ := ih
    exact ⟨_, (Spelled.cons (.openGroup hopening) hs).append (.singleton (.closeGroup hclosing)),
      hitems.group rfl⟩

/-! ## Blocks -/

namespace BlockReader

variable {acc blocks : List Block} {b : OpenBlock} {s ending rest tokens : List Token}
  {multiChild : Bool} {line : Nat}

/-- Reads the tokens of the rest of a text, which ends on the given line. -/
def readFrom (r : BlockReader) (tokens : List Token) (line : Nat) : Except Error (List Block) := do
  (← tokens.foldlM feed r).finish line

theorem readFrom_cons (r : BlockReader) (t : Token) (tokens : List Token) (line : Nat) :
    r.readFrom (t :: tokens) line = r.feed t >>= fun r => r.readFrom tokens line := by
  rw [readFrom, List.foldlM_cons]
  exact bind_assoc ..

/-- A block that ends is added to those read before it. -/
theorem readFrom_blockEnd (h : BlockEnd ending multiChild rest) :
    readFrom ⟨acc, .within b⟩ ending line =
      b.close multiChild >>= fun block => readFrom ⟨block :: acc, .between⟩ rest line := by
  have hjoin (kind : Vocabulary.Kind) (hkind : kind.beginsOperand = false) :
      b.join (some kind) = .ok b := if_neg fun h => Bool.noConfusion (hkind.symm.trans h.2)
  have hmark {mark : Token} (hname : mark.name = "multi_child") :
      feed ⟨acc, .within b⟩ mark = .ok ⟨acc, .marked b⟩ := by
    rw [feed, hname]
    show b.join (some .multiChild) >>= _ = _
    rw [hjoin .multiChild rfl]
    rfl
  cases h with
  | atEnd =>
    show close ⟨acc, .within b⟩ b false >>= _ = _
    unfold close
    cases b.close false <;> rfl
  | line heol =>
    rw [readFrom_cons, feed, heol]
    show (b.join (some .eol) >>= _) >>= _ = _
    rw [hjoin .eol rfl]
    show close ⟨acc, .within b⟩ b false >>= _ = _
    unfold close
    cases b.close false <;> rfl
  | markedAtEnd hname =>
    rw [readFrom_cons, hmark hname]
    show close ⟨acc, .marked b⟩ b true >>= _ = _
    unfold close
    cases b.close true <;> rfl
  | markedLine hname heol =>
    rw [readFrom_cons, hmark hname]
    show readFrom ⟨acc, .marked b⟩ _ line = _
    rw [readFrom_cons, feed, heol]
    show close ⟨acc, .marked b⟩ b true >>= _ = _
    unfold close
    cases b.close true <;> rfl

theorem feed_eq_ok_iff {t : Token} {item : Precedence.Item Expr Operator} (h : Chunk [t] item)
    {r : BlockReader} :
    feed ⟨acc, .within b⟩ t = .ok r ↔
      ∃ stack, interpretation.feedJoined .concat b.afterOperand b.stack item = .ok stack ∧
        r = ⟨acc, .within { b with
          stack, lastLine := t.line, afterOperand := interpretation.completes item }⟩ := by
  have hfeed : feed ⟨acc, .within b⟩ t =
      b.join (Vocabulary.Kind.ofName? t.name) >>= fun b =>
        b.feed (Vocabulary.Kind.ofName? t.name) t >>= fun b => pure ⟨acc, .within b⟩ := by
    cases h with
    | name h | star h | optional h | alt h | openGroup h | closeGroup h =>
      rw [feed, h]
      rfl
  rw [hfeed, ← bind_assoc, bind_eq_ok_iff]
  simp only [OpenBlock.join_feed_eq_ok_iff h, pure_eq_ok_iff]
  constructor
  · rintro ⟨_, ⟨stack, hstack, rfl⟩, rfl⟩
    exact ⟨stack, hstack, rfl⟩
  · rintro ⟨stack, hstack, rfl⟩
    exact ⟨_, ⟨stack, hstack, rfl⟩, rfl⟩

/-- Reading a right-hand side is putting its parts on the stack, with operands side by side joined. -/
theorem readFrom_of_spelled {items : List (Precedence.Item Expr Operator)}
    (hs : Spelled Chunk items s) (hending : BlockEnd ending multiChild rest) :
    readFrom ⟨acc, .within b⟩ (s ++ ending) line = .ok blocks ↔
      ∃ stack, interpretation.run b.stack
          (interpretation.joined .concat b.afterOperand items) = .ok stack ∧
        ∃ body others, stack.complete (algebra 0) = .ok (body :: others) ∧
          readFrom ⟨{ name := b.name, body, multiChild, line := b.line } :: acc, .between⟩ rest line =
            .ok blocks := by
  induction hs generalizing b with
  | nil =>
    rw [List.nil_append, readFrom_blockEnd hending, bind_eq_ok_iff]
    simp only [OpenBlock.close_eq_ok_iff]
    constructor
    · rintro ⟨_, ⟨body, others, hcomplete, rfl⟩, hread⟩
      exact ⟨b.stack, rfl, body, others, hcomplete, hread⟩
    · rintro ⟨stack, hrun, body, others, hcomplete, hread⟩
      cases hrun
      exact ⟨_, ⟨body, others, hcomplete, rfl⟩, hread⟩
  | @cons us vs item items hitem _ ih =>
    obtain ⟨t, rfl⟩ := hitem.exists_eq_singleton
    rw [List.append_assoc, List.singleton_append, readFrom_cons, bind_eq_ok_iff,
      Interpretation.run_joined_cons]
    simp only [feed_eq_ok_iff hitem, bind_eq_ok_iff]
    constructor
    · rintro ⟨_, ⟨stack, hfeed, rfl⟩, hread⟩
      obtain ⟨last, hrun, hclose⟩ := ih.1 hread
      exact ⟨last, ⟨stack, hfeed, hrun⟩, hclose⟩
    · rintro ⟨last, ⟨stack, hfeed, hrun⟩, hclose⟩
      exact ⟨_, ⟨stack, hfeed, rfl⟩, ih.2 ⟨last, hrun, hclose⟩⟩

/-- A token that is read within a block is a part of the right-hand side or begins the end of it. -/
theorem chunk_or_end_of_feed {t : Token} (hop : t.name = "op" → t.lexeme ∈ ["*", "?", "|"])
    {r : BlockReader} (h : feed ⟨acc, .within b⟩ t = .ok r) :
    (∃ item, Chunk [t] item) ∨ t.name = "eol" ∨
      t.name = "multi_child" ∧ ∃ b', r = ⟨acc, .marked b'⟩ := by
  have hkind {kind : Vocabulary.Kind} (hkind : Vocabulary.Kind.ofName? t.name = some kind) :
      t.name = kind.name := Vocabulary.Kind.ofName?_eq_some_iff.1 hkind
  unfold feed at h
  obtain ⟨b', -, h⟩ := bind_eq_ok_iff.1 h
  cases hname : Vocabulary.Kind.ofName? t.name with
  | none =>
    rw [hname] at h
    cases h
  | some kind =>
    rw [hname] at h
    cases kind with
    | id => exact .inl ⟨_, .name (hkind hname)⟩
    | lparen => exact .inl ⟨_, .openGroup (hkind hname)⟩
    | rparen => exact .inl ⟨_, .closeGroup (hkind hname)⟩
    | op =>
      have hlexeme := hop (hkind hname)
      simp only [List.mem_cons, List.not_mem_nil, or_false] at hlexeme
      rcases hlexeme with hlexeme | hlexeme | hlexeme
      · exact .inl ⟨_, .star (hkind hname) hlexeme⟩
      · exact .inl ⟨_, .optional (hkind hname) hlexeme⟩
      · exact .inl ⟨_, .alt (hkind hname) hlexeme⟩
    | sep => cases h
    | eol => exact .inr (.inl (hkind hname))
    | multiChild => exact .inr (.inr ⟨hkind hname, b', (Except.ok.inj h).symm⟩)

/-- After the marker, a block ends. -/
theorem blockEnd_of_marked {mark : Token} (hmark : mark.name = "multi_child")
    (h : readFrom ⟨acc, .marked b⟩ tokens line = .ok blocks) :
    ∃ rest, BlockEnd (mark :: tokens) true rest := by
  cases tokens with
  | nil => exact ⟨[], .markedAtEnd hmark⟩
  | cons t tokens =>
    rw [readFrom_cons] at h
    obtain ⟨r, hfeed, -⟩ := bind_eq_ok_iff.1 h
    unfold feed at hfeed
    dsimp only at hfeed
    split at hfeed
    · next heol =>
      exact ⟨tokens, .markedLine hmark (Vocabulary.Kind.ofName?_eq_some_iff.1 heol)⟩
    · cases hfeed

/-- A text that is read from within a block spells the parts of a right-hand side up to the end of
the block. -/
theorem exists_spelled (hops : ∀ t ∈ tokens, t.name = "op" → t.lexeme ∈ ["*", "?", "|"])
    (h : readFrom ⟨acc, .within b⟩ tokens line = .ok blocks) :
    ∃ items s ending multiChild rest, tokens = s ++ ending ∧ Spelled Chunk items s ∧
      BlockEnd ending multiChild rest := by
  induction tokens generalizing b with
  | nil => exact ⟨[], [], [], false, [], rfl, .nil, .atEnd⟩
  | cons t tokens ih =>
    obtain ⟨hop, hops⟩ := List.forall_mem_cons.1 hops
    rw [readFrom_cons] at h
    obtain ⟨r, hfeed, h⟩ := bind_eq_ok_iff.1 h
    rcases chunk_or_end_of_feed hop hfeed with ⟨item, hitem⟩ | heol | ⟨hmark, b', rfl⟩
    · obtain ⟨stack, -, rfl⟩ := (feed_eq_ok_iff hitem).1 hfeed
      obtain ⟨items, s, ending, multiChild, rest, rfl, hs, hending⟩ := ih hops h
      exact ⟨item :: items, t :: s, ending, multiChild, rest, rfl, .cons hitem hs, hending⟩
    · exact ⟨[], [], t :: tokens, false, tokens, rfl, .nil, .line heol⟩
    · obtain ⟨rest, hending⟩ := blockEnd_of_marked hmark h
      exact ⟨[], [], t :: tokens, true, rest, rfl, .nil, hending⟩

/-- What is read between blocks starts with an empty line or with a block. -/
theorem read_cases {t : Token} (hops : ∀ t ∈ tokens, t.name = "op" → t.lexeme ∈ ["*", "?", "|"])
    (h : readFrom ⟨acc, .between⟩ (t :: tokens) line = .ok blocks) :
    (t.name = "eol" ∧ readFrom ⟨acc, .between⟩ tokens line = .ok blocks) ∨
      ∃ sep s ending multiChild rest body, tokens = sep :: (s ++ ending) ∧ t.name = "id" ∧
        sep.name = "sep" ∧ body.Written .alternation s ∧ BlockEnd ending multiChild rest ∧
          readFrom ⟨{ name := t.lexeme, body, multiChild, line := t.line } :: acc, .between⟩ rest line
            = .ok blocks := by
  rw [readFrom_cons] at h
  obtain ⟨r, hfeed, h⟩ := bind_eq_ok_iff.1 h
  unfold feed at hfeed
  dsimp only at hfeed
  split at hfeed
  · next heol =>
    cases hfeed
    exact .inl ⟨Vocabulary.Kind.ofName?_eq_some_iff.1 heol, h⟩
  split at hfeed
  · next hhead =>
    cases hfeed
    cases tokens with
    | nil => cases h
    | cons sep tokens =>
      rw [readFrom_cons] at h
      obtain ⟨r, hfeed, h⟩ := bind_eq_ok_iff.1 h
      unfold feed at hfeed
      dsimp only at hfeed
      split at hfeed
      · next hsep =>
        cases hfeed
        obtain ⟨items, s, ending, multiChild, rest, rfl, hs, hending⟩ :=
          exists_spelled (List.forall_mem_cons.1 hops).2 h
        obtain ⟨stack, hrun, body, others, hcomplete, h⟩ := (readFrom_of_spelled hs hending).1 h
        rcases writes.of_complete rfl hs hrun hcomplete with hnil | ⟨_, hbody, hwritten⟩
        · cases hnil
        · cases hbody
          exact .inr ⟨sep, s, ending, multiChild, rest, body, rfl,
            Vocabulary.Kind.ofName?_eq_some_iff.1 hhead, Vocabulary.Kind.ofName?_eq_some_iff.1 hsep,
            hwritten, hending, h⟩
      · cases hfeed
  · cases hfeed

/-- What is read between blocks writes blocks. -/
theorem exists_writesBlocks (hops : ∀ t ∈ tokens, t.name = "op" → t.lexeme ∈ ["*", "?", "|"])
    (h : readFrom ⟨acc, .between⟩ tokens line = .ok blocks) :
    ∃ more, blocks = acc.reverse ++ more ∧ WritesBlocks tokens more := by
  induction hn : tokens.length using Nat.strongRecOn generalizing tokens acc with
  | ind n ih =>
    cases tokens with
    | nil => exact ⟨[], by simpa using (Except.ok.inj h).symm, .nil⟩
    | cons t tokens =>
      rcases read_cases (List.forall_mem_cons.1 hops).2 h with ⟨heol, h⟩ |
        ⟨sep, s, ending, multiChild, rest, body, rfl, hhead, hsep, hbody, hending, h⟩
      · obtain ⟨more, hblocks, hmore⟩ :=
          ih tokens.length (by simp [← hn]) (List.forall_mem_cons.1 hops).2 h rfl
        exact ⟨more, hblocks, .emptyLine heol hmore⟩
      · have hsuffix : rest <:+ t :: sep :: (s ++ ending) :=
          hending.suffix.trans ⟨t :: sep :: s, by simp⟩
        have hlt : rest.length < n := by
          have := hending.suffix.length_le
          simp only [List.length_cons, List.length_append] at hn
          omega
        obtain ⟨more, rfl, hmore⟩ := ih rest.length hlt (fun t ht => hops t (hsuffix.subset ht)) h rfl
        exact ⟨_ :: more, by simp, .block hhead hsep hbody hending hmore⟩

theorem readFrom_of_writesBlocks {more : List Block} (h : WritesBlocks tokens more) :
    readFrom ⟨acc, .between⟩ tokens line = .ok (acc.reverse ++ more) := by
  induction h generalizing acc with
  | nil => exact congrArg Except.ok (List.append_nil _).symm
  | emptyLine heol _ ih =>
    rw [readFrom_cons, feed, heol]
    exact ih
  | block hhead hsep hbody hending _ ih =>
    rw [readFrom_cons, feed, hhead]
    show readFrom ⟨acc, .named _ _⟩ _ line = _
    rw [readFrom_cons, feed, hsep]
    show readFrom ⟨acc, .within { name := _, line := _ }⟩ _ line = _
    obtain ⟨items, hs, hexpression⟩ := exists_expression hbody
    obtain ⟨stack, hrun, hcomplete⟩ := hexpression.exists_complete
    refine (readFrom_of_spelled hs hending).2 ⟨stack, hrun, _, [], hcomplete, ?_⟩
    rw [ih]
    simp

/-- Exactly the tokens that write blocks are read, and as the blocks that they write. -/
theorem read_eq_ok_iff (hops : ∀ t ∈ tokens, t.name = "op" → t.lexeme ∈ ["*", "?", "|"])
    (eof : Token) : read tokens (.ok eof) = .ok blocks ↔ WritesBlocks tokens blocks := by
  show readFrom ⟨[], .between⟩ tokens eof.line = .ok blocks ↔ _
  constructor
  · intro h
    obtain ⟨more, rfl, hmore⟩ := exists_writesBlocks hops h
    exact hmore
  · intro h
    rw [readFrom_of_writesBlocks h]
    rfl

end BlockReader

end Predictive.Grammar
