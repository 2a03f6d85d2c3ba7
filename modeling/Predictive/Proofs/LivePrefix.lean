import Predictive.Proofs.FirstExact
import Predictive.Proofs.Lookahead

/-!
# Live prefixes

Tokens are a live prefix of a run of symbols if some form that it derives begins with their names
(`RuleSet.LivePrefix`). A live prefix goes through a run of symbols from left to right: a terminal
at the front is its first token (`livePrefix_terminal_iff`), a rule at the front derives it by one
of its alternatives (`livePrefix_rule_iff`). In a compiled grammar, this is the alternative that is
chosen on the first token (`Compiled.livePrefix_iff_of_choice`).
-/

namespace Predictive.Grammar

open Relation (ReflTransGen)

namespace RuleSet

variable {g : RuleSet} {ss : List Symbol} {t : Token} {w : List Token} {r : Nat} {x : String}
  {u : SententialForm}

/-- Some form derived from the symbols begins with the names of the tokens. -/
def LivePrefix (g : RuleSet) (ss : List Symbol) (w : List Token) : Prop :=
  ∃ rest, g.cfg.Derives (form ss) (formOf w ++ rest)

theorem livePrefix_nil : g.LivePrefix ss [] := ⟨form ss, .refl _⟩

/-! ## The front of a run of symbols -/

/-- A terminal at the front of a form stays there. -/
theorem derives_terminal_iff {name : String} {id : Nat} :
    g.cfg.Derives (form (.terminal name id :: ss)) u ↔
      ∃ v, u = .terminal name :: v ∧ g.cfg.Derives (form ss) v := by
  constructor
  · intro h
    generalize hform : form (.terminal name id :: ss) = v at h
    induction h using ReflTransGen.head_induction_on generalizing ss with
    | refl => exact ⟨form ss, hform.symm, .refl _⟩
    | head hstep _ ih =>
      obtain ⟨ls, name', q, rs, k, a, hparts, ha, hts⟩ := exists_parts_of_produces hstep hform
      cases ls with
      | nil => cases (List.cons.inj hparts).1
      | cons s ls =>
        obtain ⟨rfl, rfl⟩ := List.cons.inj hparts
        obtain ⟨v, rfl, hv⟩ := ih hts
        exact ⟨v, rfl, (produces_of_mem_alternativesOf name' ha ls rs).trans_derives hv⟩
  · rintro ⟨v, rfl, h⟩
    exact h.append_left [.terminal name]

/-- A rule at the front of a form that derives one with a terminal at the front can be replaced
first. -/
theorem derives_rule_iff {name : String} :
    g.cfg.Derives (form (.rule name r :: ss)) (.terminal x :: u) ↔
      ∃ k a, (k, a) ∈ g.alternativesOf r ∧
        g.cfg.Derives (form (a.sequence ++ ss)) (.terminal x :: u) := by
  constructor
  · intro h
    generalize hform : form (.rule name r :: ss) = v at h
    induction h using ReflTransGen.head_induction_on generalizing ss with
    | refl => cases (List.cons.inj hform).1
    | head hstep hrest ih =>
      obtain ⟨ls, name', q, rs, k, a, hparts, ha, hts⟩ := exists_parts_of_produces hstep hform
      cases ls with
      | nil =>
        obtain ⟨hrule, rfl⟩ := List.cons.inj hparts
        cases hrule
        refine ⟨k, a, ha, ?_⟩
        rw [← List.nil_append (a.sequence ++ ss), hts]
        exact hrest
      | cons s ls =>
        -- The production replaces another rule, behind the one at the front: it can come second.
        obtain ⟨rfl, rfl⟩ := List.cons.inj hparts
        obtain ⟨l, b, hb, hderives⟩ := ih hts
        have hsecond := produces_of_mem_alternativesOf name' ha (b.sequence ++ ls) rs
        simp only [List.append_assoc] at hsecond
        exact ⟨l, b, hb, hsecond.trans_derives hderives⟩
  · rintro ⟨k, a, ha, h⟩
    exact (produces_of_mem_alternativesOf name ha [] ss).trans_derives h

theorem livePrefix_terminal_iff {name : String} {id : Nat} :
    g.LivePrefix (.terminal name id :: ss) (t :: w) ↔ t.name = name ∧ g.LivePrefix ss w := by
  constructor
  · rintro ⟨rest, h⟩
    obtain ⟨v, hv, hderives⟩ := derives_terminal_iff.1 h
    obtain ⟨hname, rfl⟩ := List.cons.inj hv
    cases hname
    exact ⟨rfl, rest, hderives⟩
  · rintro ⟨rfl, rest, h⟩
    exact ⟨rest, derives_terminal_iff.2 ⟨_, rfl, h⟩⟩

theorem livePrefix_rule_iff {name : String} : g.LivePrefix (.rule name r :: ss) (t :: w) ↔
    ∃ k a, (k, a) ∈ g.alternativesOf r ∧ g.LivePrefix (a.sequence ++ ss) (t :: w) := by
  constructor
  · rintro ⟨rest, h⟩
    obtain ⟨k, a, ha, h⟩ := derives_rule_iff.1 h
    exact ⟨k, a, ha, rest, h⟩
  · rintro ⟨k, a, ha, rest, h⟩
    exact ⟨rest, derives_rule_iff.2 ⟨k, a, ha, h⟩⟩

/-! ## The first token -/

/-- The terminals of a derived form have numbers. -/
theorem exists_terminalNumber?_of_derives (hg : g.Resolved) (hss : ∀ s ∈ ss, g.Names s)
    (h : g.cfg.Derives (form ss) (.terminal x :: u)) : ∃ id, g.terminalNumber? x = some id := by
  generalize hform : form ss = v at h
  induction h using ReflTransGen.head_induction_on generalizing ss with
  | refl =>
    induction ss with
    | nil => cases hform
    | cons s ss ih =>
      cases s with
      | terminal name id =>
        cases (List.cons.inj hform).1
        exact ⟨id, hss _ List.mem_cons_self⟩
      | rule name id => cases (List.cons.inj hform).1
      | empty => exact ih (fun s hs => hss s (List.mem_cons_of_mem _ hs)) hform
  | head hstep _ ih =>
    obtain ⟨ls, name, q, rs, k, a, rfl, ha, hts⟩ := exists_parts_of_produces hstep hform
    refine ih (fun s hs => ?_) hts
    simp only [List.mem_append] at hs
    rcases hs with hs | hs | hs
    · exact hss s (List.mem_append_left _ hs)
    · exact hg.names ha s hs
    · exact hss s (List.mem_append_right _ (List.mem_cons_of_mem _ hs))

/-- The first token of a live prefix is one with which the symbols can begin. -/
theorem LivePrefix.exists_begins (hg : g.Resolved) (hss : ∀ s ∈ ss, g.Names s)
    (h : g.LivePrefix ss (t :: w)) : ∃ id, g.terminalNumber? t.name = some id ∧ g.Begins ss id := by
  obtain ⟨rest, h⟩ := h
  obtain ⟨id, hid⟩ := exists_terminalNumber?_of_derives hg hss h
  exact ⟨id, hid, t.name, formOf w ++ rest, hid, h⟩

end RuleSet

open RuleSet

namespace Compiled

variable {g : Grammar} {W : Nat → Prop} {name : String} {r k : Nat} {a : Alternative Symbol}
  {ss : List Symbol} {t : Token} {w : List Token}

/-- Where a live prefix goes through an alternative, its first token predicts the alternative. -/
theorem predicts_of_livePrefix (hg : g.Compiled) (hr : g.Resolved)
    (ha : (k, a) ∈ g.alternativesOf r)
    (hss : ∀ s ∈ ss, g.Names s) (hallows : g.Allows g.firsts W (.rule name r :: ss))
    (h : g.LivePrefix (a.sequence ++ ss) (t :: w)) :
    ∃ x, g.terminalNumber? t.name = some x ∧ x ∈ g.predicts g.firsts r a := by
  have hnames : ∀ s ∈ a.sequence ++ ss, g.Names s := fun s hs =>
    (List.mem_append.1 hs).elim (hr.names ha s) (hss s)
  obtain ⟨x, hx, hbegins⟩ := h.exists_begins hr hnames
  have hfirst := (mem_terminals_iff hr hg.firsts hnames).2 hbegins
  refine ⟨x, hx, ?_⟩
  rcases Firsts.mem_terminals_append.1 hfirst with hfirst | ⟨hnull, hfirst⟩
  · exact mem_predicts_of_first hfirst
  · exact mem_predicts_of_follow hnull (mem_fillFollow (hallows [] name r ss rfl x (.inl hfirst)))

/-- A live prefix goes through a rule by the alternative that is chosen on its first token. -/
theorem livePrefix_iff_of_choice (hg : g.Compiled) (hr : g.Resolved) (hss : ∀ s ∈ ss, g.Names s)
    (hallows : g.Allows g.firsts W (.rule name r :: ss)) :
    g.LivePrefix (.rule name r :: ss) (t :: w) ↔
      ∃ a, (g.terminalNumber? t.name).bind (g.choice? r) = some a ∧
        g.LivePrefix (a.sequence ++ ss) (t :: w) := by
  rw [livePrefix_rule_iff]
  constructor
  · rintro ⟨k, a, ha, hlive⟩
    obtain ⟨x, hx, hpredicts⟩ := hg.predicts_of_livePrefix hr ha hss hallows hlive
    refine ⟨a, ?_, hlive⟩
    rw [hx]
    exact (hg.choice?_eq_some_iff hr).2 ⟨k, ha, hpredicts⟩
  · rintro ⟨a, hchoice, hlive⟩
    obtain ⟨k, ha⟩ := hg.exists_mem_of_choice hr hchoice
    exact ⟨k, a, ha, hlive⟩

end Compiled

end Predictive.Grammar
