import Predictive.Grammar.Basic
import Predictive.Proofs.FirstExact

/-!
# Left recursion

A rule is left recursive if it derives a form that begins with itself, that is, if it reaches
itself through alternatives in which only what can be empty stands before the next rule
(`leftRecursive_iff`). A visit that meets a rule again has found one (`leftRecursive_of_firsts`),
by the rules on its path. Where all sets are found, there is none (`not_leftRecursive_of_firsts`),
since the ranks of the rules decrease along such a chain. So left recursion is reported exactly
where there is some (`ofRuleSet_leftRecursion_iff`).
-/

namespace Predictive.Grammar

open Relation (ReflTransGen TransGen)

namespace RuleSet

variable {g : RuleSet} {p q r : Nat}

/-- The rule derives, in one or more steps, a form that begins with itself. -/
def LeftRecursive (g : RuleSet) (r : Nat) : Prop :=
  ∃ rest, TransGen g.cfg.Produces [.nonterminal r] (.nonterminal r :: rest)

/-- An alternative of `p` has `q` after symbols that can be empty. -/
def Starts (g : RuleSet) (p q : Nat) : Prop :=
  ∃ k a before name after, (k, a) ∈ g.alternativesOf p ∧
    a.sequence = before ++ .rule name q :: after ∧ g.Vanishes before

theorem Starts.derives (h : g.Starts p q) :
    ∃ rest, TransGen g.cfg.Produces [.nonterminal p] (.nonterminal q :: rest) := by
  obtain ⟨k, a, before, name, after, ha, hseq, hvanishes⟩ := h
  have hstep : g.cfg.Produces [.nonterminal p] (form a.sequence) := derives_alternative "" ha
  refine ⟨form after, .head' hstep ?_⟩
  rw [hseq, form_append]
  exact hvanishes.append_right (form (.rule name q :: after))

theorem exists_of_transGen_starts (h : TransGen g.Starts p q) :
    ∃ rest, TransGen g.cfg.Produces [.nonterminal p] (.nonterminal q :: rest) := by
  induction h with
  | single h => exact h.derives
  | tail _ h ih =>
    obtain ⟨rest, hrest⟩ := ih
    obtain ⟨rest', hrest'⟩ := h.derives
    refine ⟨rest' ++ rest, hrest.trans ?_⟩
    exact hrest'.lift (· ++ rest) fun _ _ hstep => hstep.append_right rest

/-! ## A visit that fails -/

/-- Each rule of the path starts the one visited after it, and the last of them starts `r`. -/
def Leads (g : RuleSet) : List Nat → Nat → Prop
  | [], _ => True
  | q :: path, r => g.Starts q r ∧ g.Leads path q

/-- A rule that is met on its own path is left recursive. -/
theorem Leads.leftRecursive {path : List Nat} (h : g.Leads path r) (hr : r ∈ path) :
    g.LeftRecursive r := by
  have hstarts : ∀ q ∈ path, TransGen g.Starts q r := by
    clear hr
    induction path generalizing r with
    | nil => exact fun q hq => absurd hq List.not_mem_nil
    | cons p path ih =>
      intro q hq
      rcases List.mem_cons.1 hq with rfl | hq
      · exact .single h.1
      · exact (ih h.2 q hq).tail h.1
  exact exists_of_transGen_starts (hstarts r hr)

/-- A path without repetition that some rule is missing from is shorter than the list of rules. -/
theorem length_path_lt {path : List Nat} (hnodup : path.Nodup)
    (hlt : ∀ p ∈ path, p < g.rules.length) (hr : r < g.rules.length) (hmem : r ∉ path) :
    path.length < g.rules.length := by
  have hsub : r :: path ⊆ List.range g.rules.length := fun p hp => List.mem_range.2 <| by
    rcases List.mem_cons.1 hp with rfl | hp
    · exact hr
    · exact hlt p hp
  have hle := ((List.nodup_cons.2 ⟨hmem, hnodup⟩).subperm hsub).length_le
  rwa [List.length_range] at hle

/-- A visit of a run of symbols fails at a rule before which the others can be empty. -/
theorem exists_of_visitSequence {visit : Firsts → Nat → Except Nat Firsts}
    (hg : g.Resolved) (hvisit : ∀ F r G, Firsts.Built g F → r < g.rules.length →
      visit F r = .ok G → Firsts.Built g G ∧ G.Has r)
    {ss : List Symbol} (hss : g.InRange ss) {F : Firsts} (hF : Firsts.Built g F)
    (h : visitSequence visit F ss = .error q) : ∃ before name p after F',
      ss = before ++ .rule name p :: after ∧ g.Vanishes before ∧ Firsts.Built g F' ∧
        visit F' p = .error q := by
  induction ss generalizing F with
  | nil => cases h
  | cons s ss ih =>
    have htail : g.InRange ss := fun name id hs => hss name id (List.mem_cons_of_mem _ hs)
    cases s with
    | terminal name id => cases h
    | empty =>
      obtain ⟨before, name, p, after, F', rfl, hbefore, hrest⟩ := ih htail hF h
      exact ⟨.empty :: before, name, p, after, F', rfl, hbefore, hrest⟩
    | rule name r =>
      have hr := hss name r List.mem_cons_self
      unfold visitSequence at h
      rcases bind_eq_error_iff.1 h with h | ⟨G, hG, h⟩
      · exact ⟨[], name, r, ss, F, rfl, .refl _, hF, h⟩
      · obtain ⟨hbuilt, hhas⟩ := hvisit F r G hF hr hG
        split at h
        · next hnull =>
          obtain ⟨before, name', p, after, F', rfl, hbefore, hrest⟩ := ih htail hbuilt h
          refine ⟨.rule name r :: before, name', p, after, F', rfl, ?_, hrest⟩
          exact ((hbuilt.sound hg hhas).vanishes name hnull).append hbefore
        · cases h

/-- A visit fails at a rule that is met again on its own path. The path has no room for more rules
than there are, so the depth is not what it fails for. -/
theorem leftRecursive_of_visit (hg : g.Resolved) (depth : Nat) {path : List Nat} {F : Firsts}
    (hF : Firsts.Built g F) (hr : r < g.rules.length) (hleads : g.Leads path r)
    (hnodup : path.Nodup) (hlt : ∀ p ∈ path, p < g.rules.length)
    (hdepth : g.rules.length ≤ depth + path.length) (h : g.visit depth path F r = .error q) :
    g.LeftRecursive q := by
  induction depth generalizing path F r with
  | zero =>
    unfold visit at h
    split at h
    · cases h
    · split at h
      · next hmem =>
        cases h
        exact hleads.leftRecursive hmem
      · next hmem => exact absurd (length_path_lt hnodup hlt hr hmem) (by omega)
  | succ depth ih =>
    unfold visit at h
    split at h
    · cases h
    · split at h
      · next hmem =>
        cases h
        exact hleads.leftRecursive hmem
      · next hmem =>
        have hvisit : ∀ F p G, Firsts.Built g F → p < g.rules.length →
            g.visit depth (r :: path) F p = .ok G → Firsts.Grows g (r :: path) F G ∧ G.Has p :=
          fun F p G hF hp hG => grows_visit hg depth hF hp hG
        have hfail := (bind_eq_error_iff.1 h).resolve_right (by rintro ⟨_, -, hok⟩; cases hok)
        obtain ⟨⟨k, a⟩, ha, G, hG, hfail⟩ := exists_of_foldlM_eq_error
          (fun F b hb G hF hok => (grows_visitSequence hvisit (hg.inRange hb) hF hok).1.built)
          hF hfail
        obtain ⟨before, name, p, after, F', hseq, hbefore, hF', hfail⟩ :=
          exists_of_visitSequence hg (fun F p G hF hp hG =>
            (hvisit F p G hF hp hG).imp_left Firsts.Grows.built) (hg.inRange ha) hG hfail
        have hp : p < g.rules.length :=
          hg.inRange ha name p (hseq ▸ List.mem_append_right _ List.mem_cons_self)
        have hstarts : g.Leads (r :: path) p :=
          ⟨⟨k, a, before, name, after, ha, hseq, hbefore⟩, hleads⟩
        refine ih hF' hp hstarts (List.nodup_cons.2 ⟨hmem, hnodup⟩)
          (List.forall_mem_cons.2 ⟨hr, hlt⟩) ?_ hfail
        rw [List.length_cons]
        omega

/-- The rule at which the search for the sets fails is left recursive. -/
theorem leftRecursive_of_firsts (hg : g.Resolved) (h : g.firsts = .error q) :
    g.LeftRecursive q := by
  have hlt : ∀ r ∈ List.range g.rules.length, r < g.rules.length := fun r hr =>
    List.mem_range.1 hr
  obtain ⟨r, hr, F, hF, hfail⟩ := exists_of_foldlM_eq_error
    (fun F r hr G hF hok => (grows_visit hg _ hF (hlt r hr) hok).1.built) .nil h
  have hleads : g.Leads [] r := trivial
  exact leftRecursive_of_visit hg _ hF (hlt r hr) hleads List.nodup_nil
    (fun p hp => absurd hp List.not_mem_nil) (by simp) hfail

/-! ## The front of a form -/

theorem vanishes_append_iff {ss ts : List Symbol} :
    g.Vanishes (ss ++ ts) ↔ g.Vanishes ss ∧ g.Vanishes ts := by
  constructor
  · intro h
    have hnone : Derives g (ss ++ ts) [] := derives_iff.2 h
    obtain ⟨u, v, huv, hs, ht⟩ := hnone.exists_of_append
    obtain ⟨rfl, rfl⟩ := List.append_eq_nil_iff.1 huv.symm
    exact ⟨derives_iff.1 hs, derives_iff.1 ht⟩
  · exact fun h => h.1.append h.2

/-- The rule stands in a run of symbols after symbols that can be empty. -/
def Fronts (g : RuleSet) (ss : List Symbol) (q : Nat) : Prop :=
  ∃ before name after, ss = before ++ .rule name q :: after ∧ g.Vanishes before

theorem fronts_rule (name : String) (r : Nat) (ss : List Symbol) :
    g.Fronts (.rule name r :: ss) r :=
  ⟨[], name, ss, rfl, .refl _⟩

/-- An element of two lists in a row stands in the first or in the second. -/
theorem exists_of_append_eq_append_cons {α : Type} {xs ys before after : List α} {x : α}
    (h : xs ++ ys = before ++ x :: after) : (∃ mid, xs = before ++ x :: mid ∧ after = mid ++ ys) ∨
      ∃ mid, before = xs ++ mid ∧ ys = mid ++ x :: after := by
  rcases List.append_eq_append_iff.1 h with ⟨mid, rfl, rfl⟩ | ⟨mid, rfl, hmid⟩
  · exact .inr ⟨mid, rfl, rfl⟩
  · cases mid with
    | nil => exact .inr ⟨[], by simp, hmid.symm⟩
    | cons y mid =>
      obtain ⟨rfl, rfl⟩ := List.cons.inj hmid
      exact .inl ⟨mid, rfl, rfl⟩

theorem fronts_append_iff {ss ts : List Symbol} :
    g.Fronts (ss ++ ts) q ↔ g.Fronts ss q ∨ g.Vanishes ss ∧ g.Fronts ts q := by
  constructor
  · rintro ⟨before, name, after, hparts, hbefore⟩
    rcases exists_of_append_eq_append_cons hparts with ⟨mid, rfl, -⟩ | ⟨mid, rfl, rfl⟩
    · exact .inl ⟨before, name, mid, rfl, hbefore⟩
    · obtain ⟨hss, hmid⟩ := vanishes_append_iff.1 hbefore
      exact .inr ⟨hss, mid, name, after, rfl, hmid⟩
  · rintro (⟨before, name, after, rfl, hbefore⟩ | ⟨hss, before, name, after, rfl, hbefore⟩)
    · exact ⟨before, name, after ++ ts, by simp, hbefore⟩
    · exact ⟨ss ++ before, name, after, by simp, hss.append hbefore⟩

theorem fronts_of_form_eq {ss : List Symbol} {rest : SententialForm}
    (h : form ss = .nonterminal q :: rest) : g.Fronts ss q := by
  induction ss with
  | nil => cases h
  | cons s ss ih =>
    cases s with
    | terminal name id => cases (List.cons.inj h).1
    | rule name id =>
      cases (List.cons.inj h).1
      exact fronts_rule name q ss
    | empty =>
      have hempty : g.Vanishes [.empty] := .refl _
      show g.Fronts ([.empty] ++ ss) q
      exact fronts_append_iff.2 (.inr ⟨hempty, ih h⟩)

/-- The rule with which a derived form begins is reached from one at the front of the symbols. -/
theorem exists_fronts_of_derives {ss : List Symbol} {rest : SententialForm}
    (h : g.cfg.Derives (form ss) (.nonterminal q :: rest)) :
    ∃ p, g.Fronts ss p ∧ ReflTransGen g.Starts p q := by
  generalize hform : form ss = u at h
  induction h using ReflTransGen.head_induction_on generalizing ss with
  | refl => exact ⟨q, fronts_of_form_eq hform, .refl⟩
  | head hstep _ ih =>
    obtain ⟨ls, name, r, rs, k, a, rfl, ha, hts⟩ := exists_parts_of_produces hstep hform
    obtain ⟨p, hp, hpath⟩ := ih hts
    rw [← List.singleton_append (l := rs)]
    simp only [fronts_append_iff] at hp ⊢
    rcases hp with hp | ⟨hls, hp | ⟨hseq, hp⟩⟩
    · exact ⟨p, .inl hp, hpath⟩
    · -- The rule at the front comes from the alternative: the rule that this replaced starts it.
      obtain ⟨before, first, after, hseq, hbefore⟩ := hp
      have hstarts : g.Starts r p := ⟨k, a, before, first, after, ha, hseq, hbefore⟩
      exact ⟨r, .inr ⟨hls, .inl (fronts_rule name r [])⟩, hpath.head hstarts⟩
    · exact ⟨p, .inr ⟨hls, .inr ⟨.rule name ha hseq, hp⟩⟩, hpath⟩

theorem exists_alternative_of_produces {u : SententialForm}
    (h : g.cfg.Produces [.nonterminal r] u) :
    ∃ k a, (k, a) ∈ g.alternativesOf r ∧ u = form a.sequence := by
  obtain ⟨ls, name, id, rs, k, a, hparts, ha, rfl⟩ :=
    exists_parts_of_produces h (show form [.rule "" r] = _ from rfl)
  cases ls with
  | nil =>
    obtain ⟨hrule, rfl⟩ := List.cons.inj hparts
    cases hrule
    exact ⟨k, a, ha, by simp⟩
  | cons s ls => exact absurd (List.cons.inj hparts).2.symm (by simp)

/-- A rule is left recursive exactly if it reaches itself through alternatives in which only what
can be empty stands before the next rule. -/
theorem leftRecursive_iff : g.LeftRecursive r ↔ TransGen g.Starts r r := by
  refine ⟨fun ⟨rest, h⟩ => ?_, exists_of_transGen_starts⟩
  obtain ⟨u, hstep, hderives⟩ := TransGen.head'_iff.1 h
  obtain ⟨k, a, ha, rfl⟩ := exists_alternative_of_produces hstep
  obtain ⟨p, ⟨before, name, after, hseq, hbefore⟩, hpath⟩ := exists_fronts_of_derives hderives
  have hstarts : g.Starts r p := ⟨k, a, before, name, after, ha, hseq, hbefore⟩
  exact .head' hstarts hpath

theorem LeftRecursive.lt_length (h : g.LeftRecursive r) : r < g.rules.length := by
  obtain ⟨q, ⟨k, a, before, name, after, ha, -⟩, -⟩ := TransGen.head'_iff.1 (leftRecursive_iff.1 h)
  exact lt_length_of_mem_alternativesOf ha

end RuleSet

/-! ## A search that succeeds -/

theorem Firsts.consults_append {F : Firsts} {P : Nat → Prop} {ss ts : List Symbol} :
    F.Consults P (ss ++ ts) ↔
      F.Consults P ss ∧ ((F.sequence ss).nullable = true → F.Consults P ts) := by
  induction ss with
  | nil => simp [Consults, sequence]
  | cons s ss ih =>
    cases s with
    | terminal name id => simp [Consults, sequence]
    | empty => exact ih
    | rule name r =>
      simp only [List.cons_append, Consults, sequence, ih]
      by_cases hr : (F.get r).nullable = true
      · simp [hr, and_assoc]
      · simp [hr]

namespace RuleSet

variable {g : RuleSet} {F : Firsts} {p q r : Nat}

/-- A rule has a higher rank than those that its alternatives can begin with. -/
theorem rank_lt_of_starts (hg : g.Resolved) (h : g.firsts = .ok F) (hstarts : g.Starts p q) :
    F.rank q < F.rank p := by
  obtain ⟨k, a, before, name, after, ha, hseq, hbefore⟩ := hstarts
  have hnames : ∀ s ∈ before, g.Names s := fun s hs =>
    hg.names ha s (hseq ▸ List.mem_append_left _ hs)
  have hconsults := consults_rank hg h ha
  rw [hseq, Firsts.consults_append] at hconsults
  exact (hconsults.2 ((nullable_iff hg h hnames).2 hbefore)).1

theorem rank_lt_of_transGen (hg : g.Resolved) (h : g.firsts = .ok F)
    (hpath : TransGen g.Starts p q) : F.rank q < F.rank p := by
  induction hpath with
  | single hstarts => exact rank_lt_of_starts hg h hstarts
  | tail _ hstarts ih => exact (rank_lt_of_starts hg h hstarts).trans ih

/-- Where the sets are found, no rule is left recursive. -/
theorem not_leftRecursive_of_firsts (hg : g.Resolved) (h : g.firsts = .ok F) (r : Nat) :
    ¬ g.LeftRecursive r := by
  intro hr
  exact Nat.lt_irrefl _ (rank_lt_of_transGen hg h (leftRecursive_iff.1 hr))

end RuleSet

/-! ## Compilation -/

/-- Compilation reports left recursion exactly where the search for the sets fails, at the rule at
which it does. -/
theorem ofRuleSet_eq_leftRecursion_iff {g : RuleSet} {e : Error} {name : String} :
    (ofRuleSet g = .error e ∧ e.fault = .leftRecursion name) ↔
      ∃ r, g.firsts = .error r ∧ name = g.ruleName r ∧
        e = { line := g.ruleLine r, fault := .leftRecursion (g.ruleName r) } := by
  unfold ofRuleSet
  cases g.firsts with
  | error q =>
    constructor
    · rintro ⟨⟨⟩, ⟨⟩⟩
      exact ⟨q, rfl, rfl, rfl⟩
    · rintro ⟨_, ⟨⟩, rfl, rfl⟩
      exact ⟨rfl, rfl⟩
  | ok F =>
    constructor
    · rintro ⟨he, hfault⟩
      dsimp only at he
      split at he
      · cases he
        cases hfault
      · cases he
    · rintro ⟨_, ⟨⟩, -⟩

/-- For every set of rules: compilation reports left recursion exactly if some rule derives a form
that begins with itself, that is, reaches itself through alternatives in which only what can be
empty stands before the next rule. The rule that is reported is such a rule; if no two rules have
the same name, it is the one of that name. -/
theorem ofRuleSet_leftRecursion_iff (eof : String) (texts : RuleTexts) :
    let g := RuleSet.ofTexts eof texts
    ((∃ e name, ofRuleSet g = .error e ∧ e.fault = .leftRecursion name) ↔
        ∃ r, g.LeftRecursive r) ∧
      (∀ r, g.LeftRecursive r ↔ TransGen g.Starts r r) ∧
      ∀ e name, ofRuleSet g = .error e ∧ e.fault = .leftRecursion name →
        ∃ r < g.rules.length, g.LeftRecursive r ∧ name = g.ruleName r ∧ e.line = g.ruleLine r ∧
          ((texts.map (·.1)).Nodup → g.ruleNumber? name = some r) := by
  intro g
  have hg : g.Resolved := RuleSet.resolved_ofTexts eof texts
  refine ⟨⟨?_, ?_⟩, fun r => RuleSet.leftRecursive_iff, ?_⟩
  · rintro ⟨e, name, he⟩
    obtain ⟨r, hr, -⟩ := ofRuleSet_eq_leftRecursion_iff.1 he
    exact ⟨r, RuleSet.leftRecursive_of_firsts hg hr⟩
  · rintro ⟨r, hr⟩
    cases hF : g.firsts with
    | error q => exact ⟨_, _, ofRuleSet_eq_leftRecursion_iff.2 ⟨q, hF, rfl, rfl⟩⟩
    | ok F => exact absurd hr (RuleSet.not_leftRecursive_of_firsts hg hF r)
  · intro e name he
    obtain ⟨r, hr, rfl, rfl⟩ := ofRuleSet_eq_leftRecursion_iff.1 he
    have hleft := RuleSet.leftRecursive_of_firsts hg hr
    exact ⟨r, hleft.lt_length, hleft, rfl, rfl, RuleSet.ruleNumber?_ruleName hleft.lt_length⟩

/-- The rule `A` begins an alternative of its own after `B`, which can be empty. -/
theorem ofRuleSet_leftRecursion_iff_hidden :
    let g := RuleSet.ofTexts "eof"
      [("A", [{ name := "A", sequence := [.name "B", .name "A", .name "x"] },
          { name := "A", sequence := [.name "y"] }]),
        ("B", [{ name := "B", sequence := [.name "b"] }, { name := "B", sequence := [.empty] }])]
    ofRuleSet g = .error { line := 0, fault := .leftRecursion "A" } ∧ g.LeftRecursive 0 ∧
      TransGen g.Starts 0 0 := by
  intro g
  have herror : ofRuleSet g = .error { line := 0, fault := .leftRecursion "A" } := by
    decide +kernel
  obtain ⟨-, hiff, hnamed⟩ := ofRuleSet_leftRecursion_iff "eof" _
  obtain ⟨r, -, hr, -, -, hnumber⟩ := hnamed _ "A" ⟨herror, rfl⟩
  obtain rfl : 0 = r := Option.some.inj
    ((show g.ruleNumber? "A" = some 0 by decide +kernel).symm.trans (hnumber (by decide)))
  exact ⟨herror, hr, (hiff 0).1 hr⟩

end Predictive.Grammar
