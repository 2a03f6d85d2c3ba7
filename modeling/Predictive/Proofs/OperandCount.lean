import Mathlib.Data.List.Induction
import Predictive.Grammar.Basic
import Predictive.Proofs.BlockGrammar
import Predictive.Proofs.OperandSupply

/-!
# No operand is left over

Neither a regular expression nor a right-hand side leaves operands behind. Where a group or the whole is
evaluated without an error, exactly one operand is left, or none if nothing was written there. So
juxtaposition never lacks an operand (`operands_accounted_for`).
-/

namespace Predictive

open Precedence (LeavesOne Interpretation)
open Precedence.Interpretation (Opens)

/-! ## Regular expressions -/

namespace Regex

theorem tightest_concat : interpretation.Tightest .concat where
  completes := rfl
  completes_of_lt {op} h := by
    cases op with
    | concat | alt => exact absurd h (by decide)
    | star | plus | optional => rfl

/-- The error is not that juxtaposition lacks an operand. -/
def Joins (e : PatternError) : Prop := e ≠ .missingOperand Operator.concat.symbol

theorem failsOtherwise_algebra : algebra.FailsOtherwise .concat Joins where
  apply {op operands e} hop h := by
    have he : e = .missingOperand op.symbol := by
      unfold algebra Operator.apply at h
      dsimp only at h
      split at h
      case h_6 => exact (Except.error.inj h).symm
      all_goals cases h
    rw [he]
    cases op with
    | concat => exact absurd rfl hop
    | alt | star | plus | optional => exact fun h => by cases h
  unopened := nofun
  unterminated := nofun

/-- The token is the members of a class. -/
def Token.isMembers : Token → Bool
  | members _ => true
  | _ => false

/-- The members of a class stand where the class has been opened, and nowhere else. If the tokens are
whole, no class lacks them. -/
def Classed (whole : Prop) : Bool → List Token → Prop
  | opened, [] => whole → opened = false
  | opened, t :: ts => t.isMembers = opened ∧ Classed whole (t = .openClass) ts

/-- The reader stands in a class. -/
def Reader.withinClass : Reader → Bool
  | openClass | inClass _ _ | escapeInClass _ _ => true
  | outside | escape | embed _ => false

/-- What is read tells where the reader stands: members at the end of a class, and otherwise nothing in a
class. -/
def Reader.Tells (r next : Reader) : Option Token → Prop
  | none => next.withinClass = r.withinClass
  | some t => t.isMembers = r.withinClass ∧ next.withinClass = decide (t = .openClass)

theorem unescape_guarantees (c : Char) : Guarantees Joins (fun _ => True) (unescape c) := by
  unfold unescape
  repeat' split
  all_goals first
    | exact .ok trivial
    | exact .error nofun

theorem classLabels_guarantees (negated : Bool) (members : SortedSet Label) :
    Guarantees Joins (fun _ => True) (classLabels negated members) := by
  unfold classLabels
  extract_lets labels
  split
  · exact .error nofun
  · exact .ok trivial

namespace Reader

theorem readInClass_guarantees {r : Reader} (hr : r.withinClass = true) (negated : Bool)
    (members : SortedSet Label) (c : Char) :
    Guarantees Joins (fun result => r.Tells result.2 result.1) (readInClass negated members c) := by
  unfold readInClass
  split
  · exact (classLabels_guarantees negated members).map fun labels _ => ⟨hr.symm, rfl⟩
  · repeat' split
    all_goals first
      | exact .ok hr.symm
      | exact .error fun h => by cases h

theorem read_guarantees (r : Reader) (c : Char) :
    Guarantees Joins (fun result => r.Tells result.2 result.1) (r.read c) := by
  cases r with
  | outside =>
    by_cases hc : c ∈ ['*', '+', '?', '|', '(', ')', '[', ']', '^', ':', '.', '\\']
    · simp only [List.mem_cons, List.not_mem_nil, or_false] at hc
      rcases hc with rfl | rfl | rfl | rfl | rfl | rfl | rfl | rfl | rfl | rfl | rfl | rfl
      all_goals first
        | exact .ok ⟨rfl, rfl⟩
        | exact .ok rfl
        | exact .error nofun
    · have hread : read outside c = .ok (some (.label (.char c)), outside) := by
        simp only [List.mem_cons, List.not_mem_nil, or_false, not_or] at hc
        simp [read, readOutside, hc]
      rw [hread]
      exact .ok ⟨rfl, rfl⟩
  | escape => exact (unescape_guarantees c).map fun _ _ => ⟨rfl, rfl⟩
  | embed name =>
    rw [read]
    split
    · exact .ok ⟨rfl, rfl⟩
    · exact .ok rfl
  | openClass =>
    rw [read]
    split
    · exact .ok rfl
    · exact readInClass_guarantees rfl false ∅ c
  | inClass negated members => exact readInClass_guarantees rfl negated members c
  | escapeInClass negated members => exact (unescape_guarantees c).map fun _ _ => rfl

end Reader

theorem classed_tokens (r : Reader) (cs : List Char) :
    Classed ((r.tokens cs).2 = none) r.withinClass (r.tokens cs).1 := by
  induction cs generalizing r with
  | nil =>
    cases r with
    | outside | escape | embed _ => exact fun _ => rfl
    | openClass | inClass _ _ | escapeInClass _ _ => exact fun h => by cases h
  | cons c cs ih =>
    rw [Reader.tokens]
    cases hread : r.read c with
    | error e => exact fun h => by cases h
    | ok result =>
      obtain ⟨token?, next⟩ := result
      have htells := (r.read_guarantees c).of_ok hread
      have hrest := ih next
      cases token? with
      | none =>
        rw [show next.withinClass = r.withinClass from htells] at hrest
        exact hrest
      | some t =>
        rw [htells.2] at hrest
        exact ⟨htells.1, hrest⟩

theorem joins_of_fault {r : Reader} {cs : List Char} {e : PatternError}
    (h : (r.tokens cs).2 = some e) : Joins e := by
  induction cs generalizing r with
  | nil =>
    cases r <;> cases h <;> exact nofun
  | cons c cs ih =>
    rw [Reader.tokens] at h
    cases hread : r.read c with
    | error e' =>
      rw [hread] at h
      cases h
      exact (r.read_guarantees c).of_error hread
    | ok result =>
      rw [hread] at h
      exact ih h

/-! ### The tokens on the stack -/

variable {known : String → Bool} {p : Partial} {t : Token} {due : Bool}

/-- What holds after a token, where `opened` tells whether this opened a class. -/
structure Partial.Ready (p : Partial) (opened : Bool) : Prop where
  stack : interpretation.Ready .concat p.afterOperand opened p.stack
  afterOperand : opened = true → p.afterOperand = false

/-- The operand that a token begins is joined to the one before it. -/
def Partial.join (p : Partial) (t : Token) : Except PatternError (Precedence.Stack Regex Operator) :=
  if p.afterOperand && t.beginsOperand then p.stack.addOperator algebra .concat else pure p.stack

theorem Partial.feed_eq_join (p : Partial) (t : Token) :
    p.feed known t = p.join t >>= fun stack => place known stack t >>= fun stack =>
      pure { stack, afterOperand := t.completesOperand } := by
  rw [feed, join]
  split <;> rfl

theorem Partial.ready_join (h : p.Ready t.isMembers) :
    Guarantees Joins (fun s => (t.beginsOperand = true → ∃ due, interpretation.Ready .concat false due s) ∧
      (t.beginsOperand = false → s = p.stack)) (p.join t) := by
  obtain ⟨stack, afterOperand⟩ := p
  unfold join
  cases hbegins : t.beginsOperand with
  | false =>
    rw [Bool.and_false]
    exact .ok ⟨nofun, fun _ => rfl⟩
  | true =>
    cases afterOperand with
    | false => exact .ok ⟨fun _ => ⟨_, h.stack⟩, nofun⟩
    | true =>
      have hopened : t.isMembers = false := Bool.eq_false_iff.2 fun ht => nomatch h.afterOperand ht
      have hready := h.stack
      rw [hopened] at hready
      exact (hready.addJoin tightest_concat ⟨rfl, .rfl⟩ failsOtherwise_algebra).mono fun s hs =>
        ⟨fun _ => ⟨true, hs⟩, nofun⟩

theorem Partial.ready_place {s : Precedence.Stack Regex Operator} (h : p.Ready t.isMembers)
    (hbegins : t.beginsOperand = true → ∃ due, interpretation.Ready .concat false due s)
    (hother : t.beginsOperand = false → s = p.stack) :
    Guarantees Joins (fun s' => interpretation.Ready .concat t.completesOperand (t = .openClass) s' ∧
      (t ≠ .openClass → Opens (t = .openGroup) s')) (place known s t) := by
  have hoperator (op : Operator) (hop : op ≠ .concat) (hs : s = p.stack) (hmembers : t.isMembers = false)
      (hcompletes : interpretation.completes (.operator op) = t.completesOperand)
      (hclass : decide (t = .openClass) = false) (hgroup : t ≠ .openGroup) :
      Guarantees Joins (fun s' => interpretation.Ready .concat t.completesOperand (t = .openClass) s' ∧
        (t ≠ .openClass → Opens (t = .openGroup) s')) (s.addOperator algebra op) := by
    have hready := h.stack
    rw [hmembers, ← hs] at hready
    refine (hready.addOperator tightest_concat ⟨rfl, .rfl⟩ failsOtherwise_algebra hop).mono fun s' hs' => ?_
    rw [hcompletes] at hs'
    rw [hclass]
    exact ⟨hs'.1, fun _ => .of_ne hs'.2 hgroup⟩
  cases t with
  | label l =>
    obtain ⟨due, hs⟩ := hbegins rfl
    exact .ok ⟨(hs.addOperand _).1, fun _ => .of_ne (hs.addOperand _).2 nofun⟩
  | openClass =>
    obtain ⟨due, hs⟩ := hbegins rfl
    exact .ok ⟨hs.awaits, fun h => absurd rfl h⟩
  | members labels =>
    have hs := h.stack
    rw [h.afterOperand rfl, ← hother rfl] at hs
    exact .ok ⟨(hs.addOperand _).1, fun _ => .of_ne (hs.addOperand _).2 nofun⟩
  | openGroup =>
    obtain ⟨due, hs⟩ := hbegins rfl
    exact .ok ⟨hs.enter, fun _ => .enter s rfl⟩
  | closeGroup =>
    have hs := h.stack
    rw [← hother rfl] at hs
    refine (hs.leave tightest_concat ⟨rfl, .rfl⟩ failsOtherwise_algebra).bind fun r hr => ?_
    obtain ⟨inner, outer⟩ := r
    obtain ⟨⟨-, rfl⟩ | ⟨-, a, rfl⟩, -, hready⟩ := hr
    · exact .error nofun
    · exact .ok ⟨(hready.addOperand a).1, fun _ => .of_ne (hready.addOperand a).2 nofun⟩
  | star => exact hoperator .star nofun (hother rfl) rfl rfl rfl nofun
  | plus => exact hoperator .plus nofun (hother rfl) rfl rfl rfl nofun
  | question => exact hoperator .optional nofun (hother rfl) rfl rfl rfl nofun
  | bar => exact hoperator .alt nofun (hother rfl) rfl rfl rfl nofun
  | embed name =>
    obtain ⟨due, hs⟩ := hbegins rfl
    unfold place
    dsimp only
    split
    · exact .ok ⟨(hs.addOperand _).1, fun _ => .of_ne (hs.addOperand _).2 nofun⟩
    · exact .error nofun

theorem Partial.ready_feed (h : p.Ready t.isMembers) :
    Guarantees Joins (fun p' => p'.Ready (t = .openClass) ∧
      (t ≠ .openClass → Opens (t = .openGroup) p'.stack)) (p.feed known t) := by
  rw [feed_eq_join]
  refine (ready_join h).bind fun s hs => (ready_place h hs.1 hs.2).bind fun s' hs' => ?_
  refine .ok ⟨⟨hs'.1, fun ht => ?_⟩, hs'.2⟩
  rw [of_decide_eq_true ht]
  rfl

/-- What holds after tokens that other tokens may follow. -/
theorem Partial.ready_foldlM {whole : Prop} (ts rest : List Token)
    (h : Classed whole false (ts ++ rest)) :
    Guarantees Joins (fun p => ∃ opened, p.Ready opened ∧ Classed whole opened rest ∧
      (opened = false → ts = [] ∧ p = {} ∨ ts ≠ [] ∧ Opens (ts.getLast? = some .openGroup) p.stack))
      (ts.foldlM (feed known) {}) := by
  induction ts using List.reverseRecOn generalizing rest with
  | nil => exact .ok ⟨false, ⟨.start _ _, nofun⟩, h, fun _ => .inl ⟨rfl, rfl⟩⟩
  | append_singleton ts t ih =>
    rw [List.append_assoc] at h
    rw [List.foldlM_append]
    refine (ih _ h).bind fun p hp => ?_
    obtain ⟨opened, hready, ⟨rfl, hclassed⟩, -⟩ := hp
    rw [List.foldlM_cons]
    refine (ready_feed hready).bind fun p' hp' =>
      .ok ⟨_, hp'.1, hclassed, fun hopened => .inr ?_⟩
    have hopens := hp'.2 (of_decide_eq_false hopened)
    rw [List.getLast?_append_of_ne_nil _ (List.cons_ne_nil t [])]
    refine ⟨by simp, ?_⟩
    simpa using hopens

/-! ### Groups and whole expressions -/

/-- The tokens of an expression, and the fault at which the reading ended. -/
def tokensOf (text : String) : List Token × Option PatternError :=
  Reader.outside.tokens (text.toList.filter fun c => c ≠ ' ' ∧ c ≠ '\t')

theorem classed_tokensOf (text : String) :
    Classed ((tokensOf text).2 = none) false (tokensOf text).1 :=
  classed_tokens .outside _

variable {text : String}

/-- A group that is evaluated leaves one operand, or none if it has just been opened. -/
theorem leavesOne_of_leave {ts rest : List Token} {inner : List Regex}
    {s : Precedence.Stack Regex Operator} (htokens : (tokensOf text).1 = ts ++ .closeGroup :: rest)
    (hrun : ts.foldlM (Partial.feed known) {} = .ok p) (hleave : p.stack.leave algebra = .ok (inner, s)) :
    LeavesOne (ts.getLast? = some .openGroup) inner := by
  obtain ⟨opened, hready, ⟨rfl, -⟩, hopens⟩ :=
    (Partial.ready_foldlM ts _ (htokens ▸ classed_tokensOf text)).of_ok hrun
  obtain ⟨hone, houter, -⟩ :=
    (hready.stack.leave tightest_concat ⟨rfl, .rfl⟩ failsOtherwise_algebra).of_ok hleave
  rcases hopens rfl with ⟨-, rfl⟩ | ⟨-, hopens⟩
  · exact absurd rfl houter
  · exact hone.congr hopens.inner_iff

/-- What holds when all tokens are placed. -/
theorem Partial.ready_tokensOf (hwhole : (tokensOf text).2 = none) :
    Guarantees Joins (fun p => p.Ready false ∧ ((tokensOf text).1 = [] ∧ p = {} ∨
      (tokensOf text).1 ≠ [] ∧ Opens ((tokensOf text).1.getLast? = some .openGroup) p.stack))
      ((tokensOf text).1.foldlM (feed known) {}) := by
  have hclassed := classed_tokensOf text
  rw [← List.append_nil (tokensOf text).1] at hclassed
  refine (ready_foldlM _ [] hclassed).mono fun p hp => ?_
  obtain ⟨opened, hready, hclassed, hopens⟩ := hp
  obtain rfl := hclassed hwhole
  exact ⟨hready, hopens rfl⟩

/-- An expression that is evaluated leaves one operand, or none if it has no token. -/
theorem leavesOne_of_complete {operands : List Regex} (hwhole : (tokensOf text).2 = none)
    (hrun : (tokensOf text).1.foldlM (Partial.feed known) {} = .ok p)
    (hcomplete : p.stack.complete algebra = .ok operands) :
    LeavesOne ((tokensOf text).1 = []) operands := by
  obtain ⟨hready, hopens⟩ := (Partial.ready_tokensOf hwhole).of_ok hrun
  obtain ⟨hone, houter⟩ :=
    (hready.stack.complete tightest_concat ⟨rfl, .rfl⟩ failsOtherwise_algebra).of_ok hcomplete
  rcases hopens with ⟨hnil, rfl⟩ | ⟨hne, hopens⟩
  · exact hone.congr (iff_of_true rfl hnil)
  · exact hone.congr (iff_of_false (fun h => hopens.outer (hopens.inner_iff.1 h) houter) hne)

/-! ### Errors -/

theorem Partial.finish_guarantees (hwhole : (tokensOf text).2 = none)
    (hrun : (tokensOf text).1.foldlM (feed known) {} = .ok p) :
    Guarantees Joins (fun _ => True) p.finish := by
  obtain ⟨hready, -⟩ := (ready_tokensOf hwhole).of_ok hrun
  have hcomplete := hready.stack.complete tightest_concat ⟨rfl, .rfl⟩ failsOtherwise_algebra
  refine hcomplete.bind fun operands h => ?_
  obtain ⟨⟨-, rfl⟩ | ⟨-, regex, rfl⟩, -⟩ := h
  · exact .error nofun
  · exact .ok trivial

theorem ofTokens_guarantees (known : String → Bool) (text : String) :
    Guarantees Joins (fun _ => True) (ofTokens known (tokensOf text).1 (tokensOf text).2) := by
  have hclassed := classed_tokensOf text
  rw [← List.append_nil (tokensOf text).1] at hclassed
  unfold ofTokens
  cases hp : (tokensOf text).1.foldlM (Partial.feed known) {} with
  | error e => exact .error ((Partial.ready_foldlM _ [] hclassed).of_error hp)
  | ok p =>
    cases hfault : (tokensOf text).2 with
    | some e => exact .error (joins_of_fault hfault)
    | none => exact Partial.finish_guarantees hfault hp

/-- Whatever is wrong with an expression, juxtaposition does not lack an operand. -/
theorem compile_guarantees (lookup : String → Option Nfa) (text : String) :
    Guarantees Joins (fun _ => True) (compile lookup text) := by
  have hread : Guarantees Joins (fun _ => True) (read (fun name => (lookup name).isSome) text.toList) := by
    unfold read
    dsimp only
    split
    · exact .error nofun
    · exact ofTokens_guarantees _ text
  exact hread.map fun _ _ => trivial

end Regex

/-! ## Right-hand sides -/

namespace Grammar

theorem tightest_concat : interpretation.Tightest .concat where
  completes := rfl
  completes_of_lt {op} h := by
    cases op with
    | concat | alt => exact absurd h (by decide)
    | star | optional => rfl

/-- The error is not that juxtaposition lacks an operand. -/
def Joins (e : Error) : Prop := e.fault ≠ .missingOperand Operator.concat.symbol

theorem failsOtherwise_algebra (line : Nat) : (algebra line).FailsOtherwise .concat Joins where
  apply {op operands e} hop h := by
    have he : e.fault = .missingOperand op.symbol := by
      unfold algebra Operator.apply at h
      dsimp only at h
      split at h
      case h_5 => exact (congrArg Error.fault (Except.error.inj h)).symm
      all_goals cases h
    unfold Joins
    rw [he]
    cases op with
    | concat => exact absurd rfl hop
    | alt | star | optional => exact fun h => by cases h
  unopened := nofun
  unterminated := nofun

theorem ofLexeme_ne_concat (lexeme : String) : Operator.ofLexeme lexeme ≠ .concat := by
  unfold Operator.ofLexeme
  repeat' split
  all_goals exact nofun

theorem completes_ofLexeme (lexeme : String) :
    interpretation.completes (.operator (.ofLexeme lexeme)) = completesOperand .op lexeme := by
  unfold completesOperand Operator.ofLexeme
  repeat' split
  all_goals first
    | rfl
    | contradiction

/-! ### The tokens on the stack -/

namespace OpenBlock

variable {b : OpenBlock} {kind : Option Vocabulary.Kind} {t last : Token}

theorem ready_join (h : interpretation.Ready .concat b.afterOperand false b.stack) :
    Guarantees Joins (fun b' =>
      (kind.any (·.beginsOperand) = true → ∃ due, interpretation.Ready .concat false due b'.stack) ∧
      (kind.any (·.beginsOperand) = false → b' = b)) (b.join kind) := by
  unfold join
  split
  · next hjoin =>
    rw [hjoin.1] at h
    refine (h.addJoin tightest_concat (agrees_algebra 0 _) (failsOtherwise_algebra _)).bind fun s hs => ?_
    exact .ok ⟨fun _ => ⟨true, hs⟩, fun hfalse => absurd hjoin.2 (Bool.eq_false_iff.1 hfalse)⟩
  · next hjoin =>
    refine .ok ⟨fun hbegins => ⟨false, ?_⟩, fun _ => rfl⟩
    have hafter : b.afterOperand = false := Bool.eq_false_iff.2 fun hafter => hjoin ⟨hafter, hbegins⟩
    rwa [hafter] at h

theorem ready_place {b' : OpenBlock} (h : interpretation.Ready .concat b.afterOperand false b.stack)
    (hbegins : kind.any (·.beginsOperand) = true → ∃ due, interpretation.Ready .concat false due b'.stack)
    (hother : kind.any (·.beginsOperand) = false → b' = b) :
    Guarantees Joins (fun s => interpretation.Ready .concat (kind.any (completesOperand · t.lexeme)) false s ∧
      Opens (kind = some .lparen) s ∧ kind ≠ some .sep) (b'.place kind t) := by
  unfold place
  split
  · obtain ⟨due, hs⟩ := hbegins rfl
    exact .ok ⟨(hs.addOperand _).1, .of_ne (hs.addOperand _).2 nofun, nofun⟩
  · obtain rfl := hother rfl
    refine (h.addOperator tightest_concat (agrees_algebra 0 _) (failsOtherwise_algebra _)
      (ofLexeme_ne_concat t.lexeme)).mono fun s hs => ?_
    rw [completes_ofLexeme] at hs
    exact ⟨hs.1, .of_ne hs.2 nofun, nofun⟩
  · obtain ⟨due, hs⟩ := hbegins rfl
    exact .ok ⟨hs.enter, .enter _ rfl, nofun⟩
  · obtain rfl := hother rfl
    refine (h.leave tightest_concat (agrees_algebra 0 _) (failsOtherwise_algebra _)).bind fun r hr => ?_
    obtain ⟨inner, outer⟩ := r
    -- a group is pushed as one operand, of one or of none
    have hpush (a : Expr) (hready : interpretation.Ready .concat false true outer) :
        interpretation.Ready .concat true false (outer.addOperand a) ∧
          Opens (some Vocabulary.Kind.rparen = some .lparen) (outer.addOperand a) ∧
          some Vocabulary.Kind.rparen ≠ some .sep :=
      ⟨(hready.addOperand a).1, .of_ne (hready.addOperand a).2 nofun, nofun⟩
    obtain ⟨⟨-, rfl⟩ | ⟨-, a, rfl⟩, -, hready⟩ := hr
    · exact .ok (hpush .empty hready)
    · exact .ok (hpush (.group a) hready)
  · exact .error nofun

/-- What holds of a block after the token `last`. -/
structure Follows (b : OpenBlock) (last : Token) : Prop where
  ready : interpretation.Ready .concat b.afterOperand false b.stack
  starts : last.name = "sep" → b.stack = {}
  opens : last.name ≠ "sep" → Opens (last.name = "lparen") b.stack

theorem follows_feed {b' : OpenBlock} (h : interpretation.Ready .concat b.afterOperand false b.stack)
    (hbegins : (Vocabulary.Kind.ofName? t.name).any (·.beginsOperand) = true →
      ∃ due, interpretation.Ready .concat false due b'.stack)
    (hother : (Vocabulary.Kind.ofName? t.name).any (·.beginsOperand) = false → b' = b) :
    Guarantees Joins (fun b'' => b''.Follows t) (b'.feed (Vocabulary.Kind.ofName? t.name) t) := by
  refine (ready_place h hbegins hother).bind fun s hs =>
    .ok ⟨hs.1, fun hsep => ?_, fun _ => ?_⟩
  · exact absurd (Vocabulary.Kind.ofName?_eq_some_iff.2 hsep) hs.2.2
  · have hparen : Vocabulary.Kind.ofName? t.name = some .lparen ↔ t.name = "lparen" :=
      Vocabulary.Kind.ofName?_eq_some_iff
    rw [← hparen]
    exact hs.2.1

theorem close_guarantees (h : interpretation.Ready .concat b.afterOperand false b.stack)
    (multiChild : Bool) : Guarantees Joins (fun _ => True) (b.close multiChild) := by
  refine (h.complete tightest_concat (agrees_algebra 0 _) (failsOtherwise_algebra _)).bind
    fun operands _ => ?_
  cases operands with
  | nil => exact .error nofun
  | cons body others => exact .ok trivial

end OpenBlock

/-! ### Blocks -/

namespace BlockReader

variable {r : BlockReader} {ts : List Token}

/-- What holds of the block that is read after tokens. -/
def Tracks (r : BlockReader) (ts : List Token) : Prop :=
  match r.position with
  | .between | .named _ _ => True
  | .within b => ∃ last, ts.getLast? = some last ∧ b.Follows last
  | .marked b => ∃ last, ts.dropLast.getLast? = some last ∧ b.Follows last

theorem close_guarantees {b : OpenBlock} {last : Token} (h : b.Follows last) (r : BlockReader)
    (multiChild : Bool) (ts : List Token) :
    Guarantees Joins (fun r => r.Tracks ts) (r.close b multiChild) :=
  (b.close_guarantees h.ready multiChild).bind fun _ _ => .ok trivial

theorem tracks_feed (h : r.Tracks ts) (t : Token) :
    Guarantees Joins (fun r => r.Tracks (ts ++ [t])) (r.feed t) := by
  obtain ⟨blocks, position⟩ := r
  unfold feed
  dsimp only
  cases position with
  | between =>
    dsimp only
    split
    · exact .ok trivial
    · split
      · exact .ok trivial
      · exact .error nofun
  | named name line =>
    dsimp only
    split
    · next hsep =>
      refine .ok ⟨t, List.getLast?_concat, .start _ _, fun _ => rfl, fun hne => absurd ?_ hne⟩
      exact Vocabulary.Kind.ofName?_eq_some_iff.1 hsep
    · exact .error nofun
  | within b =>
    obtain ⟨last, hlast, hfollows⟩ := h
    refine (OpenBlock.ready_join hfollows.ready).bind fun b' hb' => ?_
    split
    · next heol =>
      rw [heol] at hb'
      obtain rfl := hb'.2 rfl
      exact close_guarantees hfollows _ false _
    · split
      · next hmark =>
        rw [hmark] at hb'
        obtain rfl := hb'.2 rfl
        exact .ok ⟨last, by rwa [List.dropLast_concat], hfollows⟩
      · exact (OpenBlock.follows_feed hfollows.ready hb'.1 hb'.2).bind fun b'' hb'' =>
          .ok ⟨t, List.getLast?_concat, hb''⟩
  | marked b =>
    obtain ⟨last, -, hfollows⟩ := h
    dsimp only
    split
    · exact close_guarantees hfollows _ true _
    · exact .error nofun

theorem tracks_foldlM (ts : List Token) :
    Guarantees Joins (fun r => r.Tracks ts) (ts.foldlM feed {}) := by
  induction ts using List.reverseRecOn with
  | nil => exact .ok trivial
  | append_singleton ts t ih =>
    rw [List.foldlM_append]
    refine ih.bind fun r hr => ?_
    rw [List.foldlM_cons]
    exact (tracks_feed hr t).bind fun r' hr' => .ok hr'

theorem read_guarantees (tokens : List Token) (ending : Except TokenizeError Token) :
    Guarantees Joins (fun _ => True) (read tokens ending) := by
  refine (tracks_foldlM tokens).bind fun r hr => ?_
  cases ending with
  | error e => exact .error nofun
  | ok eof =>
    obtain ⟨blocks, position⟩ := r
    cases position with
    | between => exact .ok trivial
    | named name line => exact .error nofun
    | within b =>
      obtain ⟨last, -, hfollows⟩ := hr
      exact (close_guarantees hfollows _ false tokens).bind fun _ _ => .ok trivial
    | marked b =>
      obtain ⟨last, -, hfollows⟩ := hr
      exact (close_guarantees hfollows _ true tokens).bind fun _ _ => .ok trivial

/-! ### Groups and whole right-hand sides -/

variable {b : OpenBlock} {line : Nat} {inner operands : List Expr} {s : Precedence.Stack Expr Operator}

/-- A group that is evaluated leaves one operand, or none if it has just been opened. -/
theorem leavesOne_of_leave (hrun : ts.foldlM feed {} = .ok r) (hr : r.position = .within b)
    (hleave : b.stack.leave (algebra line) = .ok (inner, s)) :
    LeavesOne (ts.getLast?.map (·.name) = some "lparen") inner := by
  have htracks := (tracks_foldlM ts).of_ok hrun
  unfold Tracks at htracks
  rw [hr] at htracks
  obtain ⟨last, hlast, hfollows⟩ := htracks
  obtain ⟨hone, houter, -⟩ := (hfollows.ready.leave tightest_concat (agrees_algebra 0 _)
    (failsOtherwise_algebra _)).of_ok hleave
  have hsep : last.name ≠ "sep" := fun hsep => by
    rw [hfollows.starts hsep] at houter
    exact houter rfl
  rw [hlast, Option.map_some, Option.some_inj]
  exact hone.congr (hfollows.opens hsep).inner_iff

/-- A right-hand side that is evaluated leaves one operand, or none if it has no token. -/
theorem leavesOne_of_follows {last : Token} (hfollows : b.Follows last)
    (hcomplete : b.stack.complete (algebra line) = .ok operands) :
    LeavesOne (last.name = "sep") operands := by
  obtain ⟨hone, houter⟩ := (hfollows.ready.complete tightest_concat (agrees_algebra 0 _)
    (failsOtherwise_algebra _)).of_ok hcomplete
  refine hone.congr ?_
  by_cases hsep : last.name = "sep"
  · rw [hfollows.starts hsep]
    exact iff_of_true rfl hsep
  · have hopens := hfollows.opens hsep
    exact iff_of_false (fun h => hopens.outer (hopens.inner_iff.1 h) houter) hsep

/-- So it is where the marker `[>1]` follows the right-hand side. -/
theorem leavesOne_of_complete (hrun : ts.foldlM feed {} = .ok r)
    (hcomplete : b.stack.complete (algebra line) = .ok operands) :
    (r.position = .within b → LeavesOne (ts.getLast?.map (·.name) = some "sep") operands) ∧
      (r.position = .marked b →
        LeavesOne (ts.dropLast.getLast?.map (·.name) = some "sep") operands) := by
  have htracks := (tracks_foldlM ts).of_ok hrun
  unfold Tracks at htracks
  refine ⟨fun hr => ?_, fun hr => ?_⟩
  all_goals
    rw [hr] at htracks
    obtain ⟨last, hlast, hfollows⟩ := htracks
    rw [hlast, Option.map_some, Option.some_inj]
    exact leavesOne_of_follows hfollows hcomplete

end BlockReader

theorem readBlocks_guarantees (text : String) : Guarantees Joins (fun _ => True) (readBlocks text) := by
  unfold readBlocks
  generalize Vocabulary.patterns = words
  exact (Guarantees.mapError words fun _ => nofun).bind fun _ _ => BlockReader.read_guarantees _ _

theorem ofRuleSet_guarantees (g : RuleSet) : Guarantees Joins (fun _ => True) (ofRuleSet g) := by
  unfold ofRuleSet
  split
  · exact .error nofun
  · dsimp only
    split
    · exact .error nofun
    · exact .ok trivial

/-- Whatever is wrong with a grammar text, juxtaposition does not lack an operand. -/
theorem parse_guarantees (text : String) (config : Config) :
    Guarantees Joins (fun _ => True) (parse text config) := by
  have hrules : Guarantees Joins (fun _ => True) (readRules text config) := by
    refine (readBlocks_guarantees text).bind fun blocks _ => ?_
    split
    · exact .error nofun
    · exact .ok trivial
  exact hrules.bind fun rules _ => ofRuleSet_guarantees rules

end Grammar

/-! ## Both together -/

/-- No operand is left over in a regular expression or a right-hand side. Where a group is evaluated
without an error, it leaves exactly one operand, or none if it has just been opened. So does the whole,
or leaves none if nothing was written. Hence juxtaposition never lacks an operand. -/
theorem operands_accounted_for (lookup : String → Option Nfa) (regex text : String) (config : Config) :
    (∀ ts rest p inner s, (Regex.tokensOf regex).1 = ts ++ .closeGroup :: rest →
      ts.foldlM (Regex.Partial.feed fun name => (lookup name).isSome) {} = .ok p →
      p.stack.leave Regex.algebra = .ok (inner, s) → LeavesOne (ts.getLast? = some .openGroup) inner) ∧
    (∀ p operands, (Regex.tokensOf regex).2 = none →
      (Regex.tokensOf regex).1.foldlM (Regex.Partial.feed fun name => (lookup name).isSome) {} = .ok p →
      p.stack.complete Regex.algebra = .ok operands →
      LeavesOne ((Regex.tokensOf regex).1 = []) operands) ∧
    Regex.compile lookup regex ≠ .error (.missingOperand '.') ∧
    (∀ (ts : List Token) r b line inner s, ts.foldlM Grammar.BlockReader.feed {} = .ok r →
      r.position = .within b → b.stack.leave (Grammar.algebra line) = .ok (inner, s) →
      LeavesOne (ts.getLast?.map (·.name) = some "lparen") inner) ∧
    (∀ (ts : List Token) r b line operands, ts.foldlM Grammar.BlockReader.feed {} = .ok r →
      b.stack.complete (Grammar.algebra line) = .ok operands →
      (r.position = .within b → LeavesOne (ts.getLast?.map (·.name) = some "sep") operands) ∧
      (r.position = .marked b →
        LeavesOne (ts.dropLast.getLast?.map (·.name) = some "sep") operands)) ∧
    ∀ e, Grammar.parse text config = .error e → e.fault ≠ .missingOperand '.' := by
  refine ⟨fun ts rest p inner s => Regex.leavesOne_of_leave, fun p operands => Regex.leavesOne_of_complete,
    fun h => (Regex.compile_guarantees lookup regex).of_error h rfl,
    fun ts r b line inner s => Grammar.BlockReader.leavesOne_of_leave,
    fun ts r b line operands => Grammar.BlockReader.leavesOne_of_complete, fun e h => ?_⟩
  have hjoins := (Grammar.parse_guarantees text config).of_error h
  exact hjoins

end Predictive
