import Predictive.Proofs.LeftRecursion
import Predictive.Proofs.ParseTable

/-!
# Ambiguity

What predicts an alternative is defined by derivations alone (`RuleSet.Predicts`): the terminals with
which a form derived from its symbols can begin and, if they derive the empty string, those that come
after its rule (`RuleSet.Follow`). Rules without left recursion are compiled exactly if no terminal
predicts two alternatives of a rule, and the table then holds what predicts what
(`ofRuleSet_of_not_leftRecursive`).
-/

namespace Predictive.Grammar

open Relation (ReflTransGen)

namespace RuleSet

variable {g : RuleSet} {F : Firsts} {r t : Nat}

/-! ## What comes after a rule -/

/-- The terminals that come after a rule: the least sets such that the end of the input comes after
the start, and after an occurrence of a rule come the terminals with which the symbols behind it can
begin and, if these derive the empty string, all that comes after the rule of the alternative. -/
inductive Follow (g : RuleSet) : Nat → Nat → Prop
  | start : Follow g 0 0
  | begins {owner r t k : Nat} {a : Alternative Symbol} {before after : List Symbol}
      {name : String} : (k, a) ∈ g.alternativesOf owner →
      a.sequence = before ++ .rule name r :: after → g.Begins after t → Follow g r t
  | inherits {owner r t k : Nat} {a : Alternative Symbol} {before after : List Symbol}
      {name : String} : (k, a) ∈ g.alternativesOf owner →
      a.sequence = before ++ .rule name r :: after → g.Vanishes after → Follow g owner t →
      Follow g r t

/-- What comes after a rule for the table: a rule that nothing follows stands before the end of the
input. -/
def FollowOrEnd (g : RuleSet) (r t : Nat) : Prop := g.Follow r t ∨ t = 0 ∧ ∀ x, ¬ g.Follow r x

/-- The terminal predicts an alternative of rule `r`. -/
def Predicts (g : RuleSet) (r : Nat) (a : Alternative Symbol) (t : Nat) : Prop :=
  g.Begins a.sequence t ∨ g.Vanishes a.sequence ∧ g.FollowOrEnd r t

/-! ## The sets are exact -/

theorem names_after (hg : g.Resolved) {owner k : Nat} {a : Alternative Symbol}
    (ha : (k, a) ∈ g.alternativesOf owner) {before after : List Symbol} {name : String}
    (hseq : a.sequence = before ++ .rule name r :: after) : ∀ s ∈ after, g.Names s := fun s hs =>
  hg.names ha s (hseq ▸ List.mem_append_right _ (List.mem_cons_of_mem _ hs))

/-- The FOLLOW set of a rule holds exactly what comes after it. -/
theorem mem_followOf_iff_follow (hg : g.Resolved) (h : g.firsts = .ok F) :
    t ∈ g.followOf F g.occurrences r ↔ g.Follow r t := by
  constructor
  · rw [mem_followOf_iff]
    rintro ⟨q, hpath, ht⟩
    induction hpath using ReflTransGen.head_induction_on with
    | refl =>
      rcases mem_directFollow_iff.1 ht with ⟨rfl, rfl⟩ | ⟨o, ho, rfl, hfirst⟩
      · exact .start
      · obtain ⟨k, a, ha, before, name, hseq⟩ := mem_occurrences_iff.1 ho
        exact .begins ha hseq ((mem_terminals_iff hg h (names_after hg ha hseq)).1 hfirst)
    | head hedge _ ih =>
      obtain ⟨o, ho, rfl, rfl, hnull⟩ := mem_inheritsFrom_iff.1 hedge
      obtain ⟨k, a, ha, before, name, hseq⟩ := mem_occurrences_iff.1 ho
      exact .inherits ha hseq ((nullable_iff hg h (names_after hg ha hseq)).1 hnull) ih
  · intro hfollow
    induction hfollow with
    | start => exact zero_mem_followOf
    | @begins owner r t k a before after name ha hseq hbegins =>
      have ho : ⟨owner, r, after⟩ ∈ g.occurrences :=
        mem_occurrences_iff.2 ⟨k, a, ha, before, name, hseq⟩
      exact mem_followOf_of_first ho ((mem_terminals_iff hg h (names_after hg ha hseq)).2 hbegins)
    | @inherits owner r t k a before after name ha hseq hvanishes _ ih =>
      have ho : ⟨owner, r, after⟩ ∈ g.occurrences :=
        mem_occurrences_iff.2 ⟨k, a, ha, before, name, hseq⟩
      exact mem_followOf_of_follow ho
        ((nullable_iff hg h (names_after hg ha hseq)).2 hvanishes) ih

/-- The terminals on which the table chooses an alternative are those that predict it. -/
theorem mem_predicts_iff (hg : g.Resolved) (h : g.firsts = .ok F) {k : Nat}
    {a : Alternative Symbol} (ha : (k, a) ∈ g.alternativesOf r) :
    t ∈ g.predicts F r a ↔ g.Predicts r a t := by
  have hbegins := mem_terminals_iff hg h (hg.names ha) (t := t)
  have hvanishes := nullable_iff hg h (hg.names ha)
  have hfollow : t ∈ fillFollow (g.followOf F g.occurrences r) ↔ g.FollowOrEnd r t := by
    simp only [mem_fillFollow_iff, mem_followOf_iff_follow hg h, FollowOrEnd]
  unfold Predicts predicts predict
  rw [← hbegins, ← hvanishes, ← hfollow]
  dsimp only
  split
  · next hnull => simp [hnull]
  · next hnull => simp [hnull]

/-- Rules without left recursion have FIRST sets. -/
theorem exists_firsts (hg : g.Resolved) (h : ∀ r, ¬ g.LeftRecursive r) :
    ∃ F, g.firsts = .ok F := by
  cases hF : g.firsts with
  | ok F => exact ⟨F, rfl⟩
  | error q => exact absurd (leftRecursive_of_firsts hg hF) (h q)

end RuleSet

/-! ## Compilation -/

variable {g : RuleSet} {F : Firsts}

/-- What is reported as ambiguous is a terminal that predicts two alternatives of a rule. -/
theorem ambiguous_of_ofRuleSet (hg : g.Resolved) (h : g.firsts = .ok F) {e : Error}
    (he : ofRuleSet g = .error e) : ∃ r t k l a b, (k, a) ∈ g.alternativesOf r ∧
      (l, b) ∈ g.alternativesOf r ∧ k ≠ l ∧ g.Predicts r a t ∧ g.Predicts r b t ∧
        e = { line := g.ruleLine r, fault := .ambiguous (g.ruleName r) (g.terminalName t) } := by
  unfold ofRuleSet at he
  rw [h] at he
  dsimp only at he
  split at he
  · next r c hclash =>
    cases he
    obtain ⟨row, hrow, hclash⟩ := RuleSet.getElem?_of_firstClash_eq_some hclash
    obtain ⟨hc, d, hd, hterminal, hid⟩ := Row.exists_of_clash?_eq_some hclash
    have hcells (e : Cell) (he : e ∈ row) : (e.id, e.alternative) ∈ g.alternativesOf r ∧
        g.Predicts r e.alternative e.terminal := by
      have hmem := RuleSet.mem_rows_iff.1 (by rw [hrow]; exact he)
      exact ⟨hmem.1, (RuleSet.mem_predicts_iff hg h hmem.1).1 hmem.2⟩
    obtain ⟨hca, hct⟩ := hcells c hc
    obtain ⟨hda, hdt⟩ := hcells d hd
    exact ⟨r, c.terminal, d.id, c.id, d.alternative, c.alternative, hda, hca, hid,
      hterminal ▸ hdt, hct, rfl⟩
  · cases he

/-- For every set of rules without left recursion: it is compiled exactly if no terminal predicts two
different alternatives of a rule. The table of the compiled grammar then has an alternative for a rule
and a terminal exactly if it is one of the rule's and the terminal predicts it. Otherwise the error
names a rule and a terminal that predicts two of its alternatives. -/
theorem ofRuleSet_of_not_leftRecursive (eof : String) (texts : RuleTexts)
    (h : ∀ r, ¬ (RuleSet.ofTexts eof texts).LeftRecursive r) :
    let g := RuleSet.ofTexts eof texts
    ((∃ c, ofRuleSet g = .ok c) ↔ ∀ r k l a b, (k, a) ∈ g.alternativesOf r →
      (l, b) ∈ g.alternativesOf r → k ≠ l → ∀ t, ¬ (g.Predicts r a t ∧ g.Predicts r b t)) ∧
    (∀ c, ofRuleSet g = .ok c → ∀ r t k a,
      (c.cell? r t).map (fun x => (x.id, x.alternative)) = some (k, a) ↔
        (k, a) ∈ g.alternativesOf r ∧ g.Predicts r a t) ∧
    ∀ e, ofRuleSet g = .error e → ∃ r t k l a b, (k, a) ∈ g.alternativesOf r ∧
      (l, b) ∈ g.alternativesOf r ∧ k ≠ l ∧ g.Predicts r a t ∧ g.Predicts r b t ∧
        e = { line := g.ruleLine r, fault := .ambiguous (g.ruleName r) (g.terminalName t) } := by
  intro g
  have hg : g.Resolved := RuleSet.resolved_ofTexts eof texts
  obtain ⟨F, hF⟩ := RuleSet.exists_firsts hg h
  refine ⟨⟨?_, fun hdisjoint => ?_⟩, ?_, fun e he => ambiguous_of_ofRuleSet hg hF he⟩
  · rintro ⟨c, hc⟩ r k l a b ha hb hkl t ⟨hat, hbt⟩
    obtain ⟨hrules, hcompiled⟩ := compiled_of_ofRuleSet hc
    have hfirsts := hcompiled.firsts
    rw [hrules] at hfirsts
    refine hkl (hcompiled.predicts_unique (r := r) (t := t) (a := a) (b := b) ?_ ?_ ?_ ?_)
    · exact hrules ▸ ha
    · exact hrules ▸ hb
    · rw [hrules]
      exact (RuleSet.mem_predicts_iff hg hfirsts ha).2 hat
    · rw [hrules]
      exact (RuleSet.mem_predicts_iff hg hfirsts hb).2 hbt
  · cases hc : ofRuleSet g with
    | ok c => exact ⟨c, rfl⟩
    | error e =>
      obtain ⟨r, t, k, l, a, b, ha, hb, hkl, hat, hbt, -⟩ := ambiguous_of_ofRuleSet hg hF hc
      exact absurd ⟨hat, hbt⟩ (hdisjoint r k l a b ha hb hkl t)
  · intro c hc r t k a
    obtain ⟨hrules, hcompiled⟩ := compiled_of_ofRuleSet hc
    have hfirsts := hcompiled.firsts
    have hresolved : c.toRuleSet.Resolved := hrules ▸ hg
    rw [hrules] at hfirsts
    have hcell (x : Cell) : c.cell? r t = some x ↔ x.terminal = t ∧
        (x.id, x.alternative) ∈ g.alternativesOf r ∧ t ∈ g.predicts c.firsts r x.alternative :=
      hrules ▸ hcompiled.cell?_eq_some_iff hresolved
    rw [Option.map_eq_some_iff]
    constructor
    · rintro ⟨x, hx, heq⟩
      obtain ⟨rfl, rfl⟩ := Prod.mk.inj heq
      obtain ⟨-, ha, ht⟩ := (hcell x).1 hx
      exact ⟨ha, (RuleSet.mem_predicts_iff hg hfirsts ha).1 ht⟩
    · rintro ⟨ha, ht⟩
      have hx := (hcell ⟨t, k, a⟩).2 ⟨rfl, ha, (RuleSet.mem_predicts_iff hg hfirsts ha).2 ht⟩
      exact ⟨⟨t, k, a⟩, hx, rfl⟩

/-- A rule that can be empty stands before the terminal `b`, which predicts its empty alternative and
no other. -/
theorem ofRuleSet_of_not_leftRecursive_nullable :
    let g := RuleSet.ofTexts "eof" [("S", [{ name := "S", sequence := [.name "A", .name "b"] }]),
      ("A", [{ name := "A", sequence := [.name "a"] }, { name := "A", sequence := [.empty] }])]
    (∀ r, ¬ g.LeftRecursive r) ∧ g.terminalNumber? "b" = some 1 ∧
      (∃ a, (2, a) ∈ g.alternativesOf 1 ∧ a.sequence = [.empty] ∧ g.Predicts 1 a 1) ∧
      ∀ k a, (k, a) ∈ g.alternativesOf 1 → g.Predicts 1 a 1 → k = 2 := by
  intro g
  have hfirsts : g.firsts.isOk = true := by decide +kernel
  have hleft : ∀ r, ¬ g.LeftRecursive r := by
    cases hF : g.firsts with
    | ok F => exact RuleSet.not_leftRecursive_of_firsts (RuleSet.resolved_ofTexts _ _) hF
    | error q =>
      rw [hF] at hfirsts
      cases hfirsts
  obtain ⟨hok, hcell, -⟩ := ofRuleSet_of_not_leftRecursive "eof" _ hleft
  have hcheck : (match ofRuleSet g with
      | .ok c => decide ((c.cell? 1 1).map (fun x => (x.id, x.alternative)) =
        some (2, { name := "A", sequence := [.empty] }))
      | .error _ => false) = true := by
    decide +kernel
  split at hcheck
  · next c hc =>
    obtain ⟨ha, hpredicts⟩ := (hcell c hc 1 1 2 _).1 (of_decide_eq_true hcheck)
    refine ⟨hleft, by decide +kernel, ⟨_, ha, rfl, hpredicts⟩, fun k b hb hb' => ?_⟩
    by_contra hne
    exact hok.1 ⟨c, hc⟩ 1 k 2 b _ hb ha hne 1 ⟨hb', hpredicts⟩
  · cases hcheck

end Predictive.Grammar
