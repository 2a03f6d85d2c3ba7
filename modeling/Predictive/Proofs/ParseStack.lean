import Predictive.Proofs.LivePrefix
import Predictive.Proofs.ParseBound
import Predictive.Proofs.RuleNames

/-!
# What the parsing machine expects

The tasks on the stack expect symbols (`expected`). At the start these are the start rule and the
end of the input, and from then on the end of the input comes last and each rule is followed as its
FOLLOW set says (`Grammar.Fits`). A step that does not halt changes nothing in what can come with
the lookahead token first (`fits_of_step`), and a halt tells whether that token can come
(`Halt.Tells`). So the tokens that are read are a live prefix of what was expected, and what comes
after them is what the machine then expects (`ReadsTo.fits`).
-/

namespace Predictive

namespace Grammar

open RuleSet

variable {g : Grammar} {W V : Nat → Prop} {ss ts : List Symbol} {w : List Token}

/-! ## Empty groups -/

theorem form_filter (ss : List Symbol) : form (ss.filter (· ≠ .empty)) = form ss := by
  induction ss with
  | nil => rfl
  | cons s ss ih =>
    cases s with
    | terminal name id => simpa [form] using ih
    | rule name id => simpa [form] using ih
    | empty => simpa [form] using ih

theorem Firsts.sequence_filter (F : Firsts) (ss : List Symbol) :
    F.sequence (ss.filter (· ≠ .empty)) = F.sequence ss := by
  induction ss with
  | nil => rfl
  | cons s ss ih =>
    cases s with
    | terminal name id => rfl
    | rule name id =>
      rw [List.filter_cons_of_pos rfl]
      simp only [sequence, ih]
    | empty => exact ih

theorem livePrefix_filter_append :
    g.LivePrefix (ss.filter (· ≠ .empty) ++ ts) w ↔ g.LivePrefix (ss ++ ts) w := by
  unfold LivePrefix
  rw [form_append, form_filter, ← form_append]

/-! ## What can come after rules -/

theorem RuleSet.Allows.filter {F : Firsts} (h : g.Allows F W ss) :
    g.Allows F W (ss.filter (· ≠ .empty)) := by
  intro before name r after hss x hx
  obtain ⟨us, rest, rfl, -, hrest⟩ := List.filter_eq_append_iff.1 hss
  obtain ⟨es, vs, rfl, -, -, rfl⟩ := List.filter_eq_cons_iff.1 hrest
  rw [Firsts.sequence_filter] at hx
  exact h (us ++ es) name r vs (List.append_assoc _ _ _).symm x hx

/-- What can come after the first of two runs of symbols is what the second begins with. -/
theorem RuleSet.Allows.append {F : Firsts} (hss : g.Allows F V ss) (hts : g.Allows F W ts)
    (hV : ∀ x, x ∈ (F.sequence ts).terminals ∨ ((F.sequence ts).nullable = true ∧ W x) → V x) :
    g.Allows F W (ss ++ ts) := by
  intro before name r after heq x hx
  rcases List.append_eq_append_iff.1 heq with ⟨us, -, hright⟩ | ⟨us, rfl, hleft⟩
  · exact hts us name r after hright x hx
  · cases us with
    | nil => exact hts [] name r after hleft.symm x hx
    | cons s us =>
      obtain ⟨rfl, rfl⟩ := List.cons.inj hleft
      rw [show us.append ts = us ++ ts from rfl] at hx
      refine hss before name r us rfl x ?_
      rw [Firsts.mem_terminals_append, Firsts.nullable_append] at hx
      rcases hx with (hx | ⟨hnull, hx⟩) | ⟨⟨hnull, hts⟩, hx⟩
      · exact .inl hx
      · exact .inr ⟨hnull, hV x (.inl hx)⟩
      · exact .inr ⟨hnull, hV x (.inr ⟨hts, hx⟩)⟩

/-! ## Expected symbols -/

/-- The symbols have the numbers of their names, each rule is followed as its FOLLOW set says, and
the last symbol is the end of the input. -/
structure Fits (g : Grammar) (ss : List Symbol) : Prop where
  names : ∀ s ∈ ss, g.Names s
  allows : g.Allows g.firsts (fun _ => False) ss
  ends : [g.eof] <:+ ss

namespace Fits

variable {s : Symbol}

theorem tail (h : g.Fits (s :: ss)) (hs : s ≠ g.eof) : g.Fits ss where
  names s' hs' := h.names s' (List.mem_cons_of_mem _ hs')
  allows := h.allows.tail
  ends := (List.suffix_cons_iff.1 h.ends).resolve_left fun heof => hs (List.cons.inj heof).1.symm

/-- A rule is replaced by the symbols of an alternative. -/
theorem expand (hr : g.Resolved) {name : String} {r k : Nat} {a : Alternative Symbol}
    (h : g.Fits (.rule name r :: ss)) (ha : (k, a) ∈ g.alternativesOf r) :
    g.Fits (a.sequence.filter (· ≠ .empty) ++ ss) where
  names s hs := by
    rcases List.mem_append.1 hs with hs | hs
    · exact hr.names ha s (List.mem_of_mem_filter hs)
    · exact h.names s (List.mem_cons_of_mem _ hs)
  -- What comes after the alternative comes after the rule.
  allows := (allows_alternative ha).filter.append h.allows.tail fun x hx =>
    h.allows [] name r ss rfl x hx
  ends := (h.tail fun heof => nomatch heof).ends.trans (List.suffix_append _ _)

theorem names_eof (h : g.Fits ss) : g.terminalNumber? (g.terminalName 0) = some 0 :=
  h.names g.eof (h.ends.subset (List.mem_singleton.2 rfl))

end Fits

theorem fits_start (hstart : g.Names g.start) (heof : g.Names g.eof) :
    g.Fits [g.start, g.eof] where
  names s hs := by
    rcases List.mem_cons.1 hs with rfl | hs
    · exact hstart
    · exact List.mem_singleton.1 hs ▸ heof
  allows := by
    have hend : g.Allows g.firsts (fun _ => False) [g.eof] := by
      intro before name r after hss
      cases before with
      | nil => cases (List.cons.inj hss).1
      | cons _ before => simp [eof] at hss
    refine allows_start.append hend fun x hx => ?_
    rcases hx with hx | ⟨-, hx⟩
    · exact SortedSet.mem_singleton.1 hx
    · exact hx.elim
  ends := List.suffix_append [g.start] [g.eof]

section

variable {text : String} {config : Config}

theorem fits_of_parse (h : Grammar.parse text config = .ok g) : g.Fits [g.start, g.eof] := by
  obtain ⟨-, hrules⟩ := compiled_of_parse h
  obtain ⟨heof, hnumber⟩ := eof_of_readRules hrules
  exact fits_start (names_start_of_readRules hrules) (heof ▸ hnumber)

theorem terminalName_of_parse (h : Grammar.parse text config = .ok g) :
    g.terminalName 0 = config.eof :=
  terminalName_eq (eof_of_readRules (compiled_of_parse h).2).2

end

end Grammar

/-! ## The symbols of the tasks -/

/-- The token that an error tells of, as it was read. -/
def ParseError.token? : ParseError → Option Token
  | .tokenMismatch _ found lexeme line | .unexpectedToken _ found lexeme line =>
    some { name := found, lexeme, line }
  | .noTree | .tokenize _ => none

namespace Parse

open Grammar (RuleSet Symbol Alternative livePrefix_filter_append)
open Grammar.RuleSet (livePrefix_terminal_iff)

/-- The symbols that the tasks have yet to find. -/
def expected (stack : List Task) : List Symbol :=
  stack.filterMap fun
    | .expect s => some s
    | .close => none

@[simp] theorem expected_expect (s : Symbol) (stack : List Task) :
    expected (.expect s :: stack) = s :: expected stack := rfl

theorem expected_append (stack rest : List Task) :
    expected (stack ++ rest) = expected stack ++ expected rest := List.filterMap_append

theorem expected_tasks (ss : List Symbol) : expected (tasks ss) = ss.filter (· ≠ .empty) := by
  unfold expected tasks
  rw [List.filterMap_map]
  exact List.filterMap_some

variable {g : Grammar} {m next final : Machine} {t : Token} {stack : List Task} {halt : Halt}
  {u : List Token}

theorem stack_addLeaf (m : Machine) (t : Token) : (m.addLeaf t).stack = m.stack := by
  unfold Machine.addLeaf
  split <;> rfl

theorem expected_expand (a : Alternative Symbol) (nodes : List OpenNode) (root : Option Node) :
    expected (Machine.expand { stack, nodes, root } a).stack =
      a.sequence.filter (· ≠ .empty) ++ expected stack := by
  rw [stack_expand, expected_append, expected_append, expected_tasks]
  cases a.subrule <;> rfl

/-! ## Steps -/

/-- A step to another machine leaves what can come with the lookahead token first. -/
theorem fits_of_step (hg : g.Compiled) (hr : g.Resolved) (hm : g.Fits (expected m.stack))
    (hstep : m.step g t = .inl next) : g.Fits (expected next.stack) ∧
      ∀ w, g.LivePrefix (expected m.stack) (t :: w) ↔
        g.LivePrefix (expected next.stack) (t :: w) := by
  obtain ⟨stack, nodes, root⟩ := m
  cases stack with
  | nil => cases hstep
  | cons task stack =>
    cases task with
    | close =>
      cases hstep
      rw [stack_closeNode]
      exact ⟨hm, fun w => Iff.rfl⟩
    | expect s =>
      rw [expected_expect] at hm
      cases s with
      | empty =>
        cases hstep
        exact ⟨hm.tail (fun heof => nomatch heof), fun w => Iff.rfl⟩
      | terminal name id =>
        unfold Machine.step at hstep
        dsimp only at hstep
        split at hstep
        · cases hstep
        · split at hstep <;> cases hstep
      | rule name r =>
        unfold Machine.step at hstep
        dsimp only at hstep
        split at hstep
        · next a hchoice =>
          cases hstep
          obtain ⟨k, ha⟩ := hg.exists_mem_of_choice hr hchoice
          rw [expected_expand]
          refine ⟨hm.expand hr ha, fun w => ?_⟩
          -- No other alternative can come with this token first.
          rw [expected_expect, livePrefix_filter_append,
            hg.livePrefix_iff_of_choice hr (List.forall_mem_cons.1 hm.names).2 hm.allows, hchoice]
          simp
        · cases hstep

/-- What a halt with lookahead `t` says of the symbols that were expected. -/
def Halt.Tells (g : Grammar) (ss : List Symbol) (t : Token) : Halt → Prop
  | .read next => t.name ≠ g.terminalName 0 ∧ g.Fits (expected next.stack) ∧
      ∀ w, g.LivePrefix ss (t :: w) ↔ g.LivePrefix (expected next.stack) w
  | .accept _ => t.name = g.terminalName 0
  | .fail e => e.token? = some t ∧ ¬ g.LivePrefix ss [t]

theorem Halt.Tells.of_iff {ss ts : List Symbol} (h : halt.Tells g ts t)
    (hiff : ∀ w, g.LivePrefix ss (t :: w) ↔ g.LivePrefix ts (t :: w)) : halt.Tells g ss t := by
  cases halt with
  | read next => exact ⟨h.1, h.2.1, fun w => (hiff w).trans (h.2.2 w)⟩
  | accept final => exact h
  | fail e => exact ⟨h.1, fun hlive => h.2 ((hiff []).1 hlive)⟩

/-- A step to a halt. -/
theorem tells_of_step (hg : g.Compiled) (hr : g.Resolved) (hm : g.Fits (expected m.stack))
    (hstep : m.step g t = .inr halt) : halt.Tells g (expected m.stack) t := by
  obtain ⟨stack, nodes, root⟩ := m
  cases stack with
  | nil => exact absurd (List.suffix_nil.1 hm.ends) (List.cons_ne_nil _ _)
  | cons task stack =>
    cases task with
    | close => cases hstep
    | expect s =>
      rw [expected_expect] at hm ⊢
      cases s with
      | empty => cases hstep
      | terminal name id =>
        unfold Machine.step at hstep
        dsimp only at hstep
        have hname := hm.names _ List.mem_cons_self
        split at hstep
        · next hne =>
          cases hstep
          exact ⟨rfl, fun hlive => hne (livePrefix_terminal_iff.1 hlive).1⟩
        · next heq =>
          obtain rfl : t.name = name := not_not.1 heq
          split at hstep
          · next hid =>
            cases hstep
            subst hid
            exact (RuleSet.terminalName_eq hname).symm
          · next hid =>
            cases hstep
            rw [Halt.Tells, stack_addLeaf]
            refine ⟨fun hend => hid ?_, hm.tail fun heof => hid ?_, fun w => ?_⟩
            · rw [hend] at hname
              exact Option.some.inj (hname.symm.trans hm.names_eof)
            · exact (Grammar.Symbol.terminal.inj heof).2
            · rw [livePrefix_terminal_iff, and_iff_right rfl]
      | rule name r =>
        unfold Machine.step at hstep
        dsimp only at hstep
        split at hstep
        · cases hstep
        · next hchoice =>
          cases hstep
          refine ⟨rfl, fun hlive => ?_⟩
          rw [hg.livePrefix_iff_of_choice hr (List.forall_mem_cons.1 hm.names).2 hm.allows,
            hchoice] at hlive
          obtain ⟨a, ha, -⟩ := hlive
          cases ha

/-! ## Runs -/

/-- A machine that comes to a halt. -/
theorem tells_of_settle (hg : g.Compiled) (hr : g.Resolved) (hm : g.Fits (expected m.stack))
    {steps : Nat} (h : m.settle g t steps = some halt) : halt.Tells g (expected m.stack) t := by
  induction steps generalizing m with
  | zero => cases h
  | succ steps ih =>
    unfold Machine.settle at h
    split at h
    · next next hstep =>
      obtain ⟨hnext, hiff⟩ := fits_of_step hg hr hm hstep
      exact (ih hnext h).of_iff hiff
    · next halt' hstep =>
      cases h
      exact tells_of_step hg hr hm hstep

/-- A machine that reads tokens can find these and then what the last machine can. -/
theorem ReadsTo.fits (hg : g.Compiled) (hr : g.Resolved) (h : ReadsTo g final m u)
    (hm : g.Fits (expected m.stack)) : g.Fits (expected final.stack) ∧
      (∀ w, g.LivePrefix (expected m.stack) (u ++ w) ↔ g.LivePrefix (expected final.stack) w) ∧
        ∀ x ∈ u, x.name ≠ g.terminalName 0 := by
  induction h with
  | refl => exact ⟨hm, fun w => Iff.rfl, fun x hx => nomatch hx⟩
  | read hsettle _ ih =>
    obtain ⟨hname, hnext, hiff⟩ := tells_of_settle hg hr hm hsettle
    obtain ⟨hfinal, hrest, hnames⟩ := ih hnext
    exact ⟨hfinal, fun w => (hiff _).trans (hrest w), List.forall_mem_cons.2 ⟨hname, hnames⟩⟩

end Parse

end Predictive
