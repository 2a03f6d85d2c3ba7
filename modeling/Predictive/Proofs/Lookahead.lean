import Predictive.Proofs.ParseTable

/-!
# One token of lookahead decides

In a compiled grammar, the first token of what an alternative derives, or of what comes after it if
that is nothing, predicts the alternative (`Compiled.heads_predicts`). No token predicts two, so two
derivations of a run of symbols with the same tokens are equal, also when admissible tokens follow
them (`Compiled.derivation_unique`).
-/

namespace Predictive.Grammar

namespace RuleSet

variable {g : RuleSet} {F : Firsts} {W V : Nat → Prop} {ss : List Symbol} {w : List Token}

/-- If there is a first token, its number satisfies `W`. -/
def Heads (g : RuleSet) (W : Nat → Prop) (w : List Token) : Prop :=
  ∀ t ∈ w.head?, ∃ x, g.terminalNumber? t.name = some x ∧ W x

theorem Heads.mono (h : g.Heads W w) (hWV : ∀ x, W x → V x) : g.Heads V w := by
  intro t ht
  obtain ⟨x, hname, hx⟩ := h t ht
  exact ⟨x, hname, hWV x hx⟩

theorem heads_nil : g.Heads W [] := fun _ ht => nomatch ht

/-- The terminals that can come after a rule. -/
def Follows (g : RuleSet) (F : Firsts) (r x : Nat) : Prop := x ∈ g.followOf F g.occurrences r

/-- Where terminals that satisfy `W` come after a run of symbols, each terminal that comes after one
of its rules is in the FOLLOW set of that rule. -/
def Allows (g : RuleSet) (F : Firsts) (W : Nat → Prop) (ss : List Symbol) : Prop :=
  ∀ before name r after, ss = before ++ .rule name r :: after → ∀ x,
    x ∈ (F.sequence after).terminals ∨ ((F.sequence after).nullable = true ∧ W x) →
      g.Follows F r x

theorem Allows.tail {s : Symbol} (h : g.Allows F W (s :: ss)) : g.Allows F W ss := by
  rintro before name r after rfl
  exact h (s :: before) name r after rfl

/-- The symbols of an alternative stand where the FOLLOW set of its rule comes after them. -/
theorem allows_alternative {r k : Nat} {a : Alternative Symbol}
    (ha : (k, a) ∈ g.alternativesOf r) : g.Allows F (g.Follows F r) a.sequence := by
  intro before name q after hseq x hx
  have ho : ⟨r, q, after⟩ ∈ g.occurrences :=
    mem_occurrences_iff.2 ⟨k, a, ha, before, name, hseq⟩
  rcases hx with hx | ⟨hnull, hx⟩
  · exact mem_followOf_of_first ho hx
  · exact mem_followOf_of_follow ho hnull hx

/-- The start stands where the end of the input comes after it. -/
theorem allows_start : g.Allows F (· = 0) [g.start] := by
  intro before name r after hss x hx
  cases before with
  | nil =>
    obtain ⟨hstart, rfl⟩ := List.cons.inj hss
    cases hstart
    rcases hx with hx | ⟨-, rfl⟩
    · exact absurd hx (SortedSet.not_mem_empty x)
    · exact zero_mem_followOf
  | cons _ before => simp at hss

end RuleSet

namespace Compiled

open RuleSet

variable {g : Grammar} {W : Nat → Prop} {ss : List Symbol} {w : List Token} {r k : Nat}
  {a : Alternative Symbol}

/-- What symbols derive, before admissible tokens, begins as their FIRST set says. -/
theorem heads_sequence (hg : g.Compiled) (hr : g.Resolved) (d : Derivation g.toRuleSet ss)
    (hss : ∀ s ∈ ss, g.Names s) (hw : g.Heads W w) :
    g.Heads (fun x => x ∈ (g.firsts.sequence ss).terminals ∨
      ((g.firsts.sequence ss).nullable = true ∧ W x)) (d.tokens ++ w) := by
  have hfirst := sequence_of_derivation hr (get_firsts hr hg.firsts) d hss
  cases htokens : d.tokens with
  | nil =>
    rw [htokens] at hfirst
    exact hw.mono fun x hx => .inr ⟨hfirst, hx⟩
  | cons t ts =>
    rw [htokens] at hfirst
    obtain ⟨x, hx, hname⟩ := hfirst
    rintro _ ⟨⟩
    exact ⟨x, hname, .inl hx⟩

/-- What comes after a rule begins as its FOLLOW set says. -/
theorem heads_follows (hg : g.Compiled) (hr : g.Resolved) {name : String}
    (d : Derivation g.toRuleSet ss) (hss : ∀ s ∈ ss, g.Names s)
    (hallows : g.Allows g.firsts W (.rule name r :: ss)) (hw : g.Heads W w) :
    g.Heads (g.Follows g.firsts r) (d.tokens ++ w) :=
  (hg.heads_sequence hr d hss hw).mono fun x hx => hallows [] name r ss rfl x hx

/-- What an alternative derives, with what comes after it, begins with a terminal that predicts it.
-/
theorem heads_predicts (hg : g.Compiled) (hr : g.Resolved) (ha : (k, a) ∈ g.alternativesOf r)
    (d : Derivation g.toRuleSet a.sequence) (hw : g.Heads (g.Follows g.firsts r) w) :
    g.Heads (· ∈ g.predicts g.firsts r a) (d.tokens ++ w) := by
  refine (hg.heads_sequence hr d (hr.names ha) hw).mono fun x hx => ?_
  rcases hx with hx | ⟨hnull, hx⟩
  · exact mem_predicts_of_first hx
  · exact mem_predicts_of_follow hnull (mem_fillFollow hx)

/-- Two alternatives of a rule that derive the same tokens, before admissible ones, are one. -/
theorem alternative_unique (hg : g.Compiled) (hr : g.Resolved) {l : Nat} {b : Alternative Symbol}
    {u v : List Token} (ha : (k, a) ∈ g.alternativesOf r) (hb : (l, b) ∈ g.alternativesOf r)
    (d : Derivation g.toRuleSet a.sequence) (e : Derivation g.toRuleSet b.sequence)
    (hu : g.Heads (g.Follows g.firsts r) u) (hv : g.Heads (g.Follows g.firsts r) v)
    (h : d.tokens ++ u = e.tokens ++ v) : k = l := by
  have hpa := hg.heads_predicts hr ha d hu
  have hpb := hg.heads_predicts hr hb e hv
  rw [← h] at hpb
  cases hw : d.tokens ++ u with
  | cons t ts =>
    rw [hw] at hpa hpb
    obtain ⟨x, hx, hxa⟩ := hpa t rfl
    obtain ⟨y, hy, hyb⟩ := hpb t rfl
    obtain rfl : x = y := Option.some.inj (hx.symm.trans hy)
    exact hg.predicts_unique ha hb hxa hyb
  | nil =>
    -- Without a token, both alternatives can be empty, and some terminal comes after the rule.
    obtain ⟨x, hx⟩ := exists_mem_fillFollow (g.followOf g.firsts g.occurrences r)
    have hd := sequence_of_derivation hr (get_firsts hr hg.firsts) d (hr.names ha)
    have he := sequence_of_derivation hr (get_firsts hr hg.firsts) e (hr.names hb)
    rw [(List.append_eq_nil_iff.1 hw).1] at hd
    rw [(List.append_eq_nil_iff.1 (h.symm.trans hw)).1] at he
    exact hg.predicts_unique ha hb (mem_predicts_of_follow hd hx) (mem_predicts_of_follow he hx)

/-- A derivation is determined by its tokens, before admissible ones. -/
theorem derivation_unique (hg : g.Compiled) (hr : g.Resolved) {u v : List Token}
    (d e : Derivation g.toRuleSet ss) (hss : ∀ s ∈ ss, g.Names s)
    (hallows : g.Allows g.firsts W ss) (hu : g.Heads W u) (hv : g.Heads W v)
    (h : d.tokens ++ u = e.tokens ++ v) : d = e ∧ u = v := by
  induction d generalizing W u v with
  | nil =>
    cases e
    exact ⟨rfl, h⟩
  | empty rest ih =>
    cases e with
    | empty rest' =>
      obtain ⟨rfl, huv⟩ :=
        ih rest' (fun s hs => hss s (List.mem_cons_of_mem _ hs)) hallows.tail hu hv h
      exact ⟨rfl, huv⟩
  | terminal t ht rest ih =>
    cases e with
    | terminal t' ht' rest' =>
      obtain ⟨rfl, htail⟩ := List.cons.inj h
      obtain ⟨rfl, huv⟩ :=
        ih rest' (fun s hs => hss s (List.mem_cons_of_mem _ hs)) hallows.tail hu hv htail
      exact ⟨rfl, huv⟩
  | rule k a ha inner rest ihi ih =>
    cases e with
    | rule l b hb inner' rest' =>
      have hrest : ∀ s ∈ _, g.Names s := fun s hs => hss s (List.mem_cons_of_mem _ hs)
      simp only [Derivation.tokens, List.append_assoc] at h
      have hu' := hg.heads_follows hr rest hrest hallows hu
      have hv' := hg.heads_follows hr rest' hrest hallows hv
      obtain rfl := hg.alternative_unique hr ha hb inner inner' hu' hv' h
      obtain rfl := hr.unique ha hb
      obtain ⟨rfl, htail⟩ := ihi inner' (hr.names ha) (allows_alternative ha) hu' hv' h
      obtain ⟨rfl, huv⟩ := ih rest' hrest hallows.tail hu hv htail
      exact ⟨rfl, huv⟩

end Compiled

end Predictive.Grammar
