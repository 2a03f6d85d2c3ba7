import Predictive.Proofs.Derivation
import Mathlib.Computability.ContextFreeGrammar

/-!
# Rule sets as context-free grammars

A rule set is a context-free grammar whose nonterminals are the numbers of the rules. A list of
tokens has a derivation exactly if the grammar derives their names (`derives_iff`), so the names of
the tokens derived from the start are the language of the grammar (`mem_language_cfg_iff`).
-/

namespace Predictive

/-- A string of terminals, by name, and nonterminals, by number. -/
abbrev SententialForm := List (Symbol String Nat)

namespace Grammar

/-- The form that a run of symbols stands for; the empty group stands for the empty string. -/
def form : List Symbol → SententialForm
  | [] => []
  | .terminal name _ :: ss => .terminal name :: form ss
  | .rule _ id :: ss => .nonterminal id :: form ss
  | .empty :: ss => form ss

namespace RuleSet

/-- The alternatives of all rules as productions. -/
def productions (g : RuleSet) : List (ContextFreeRule String Nat) :=
  (List.range g.rules.length).flatMap fun id =>
    (g.alternativesOf id).map fun a => { input := id, output := form a.2.sequence }

/-- The context-free grammar of the rules. -/
abbrev cfg (g : RuleSet) : ContextFreeGrammar String where
  NT := Nat
  initial := 0
  rules := g.productions.toFinset

theorem lt_length_of_mem_alternativesOf {g : RuleSet} {id k : Nat} {a : Alternative Symbol}
    (h : (k, a) ∈ g.alternativesOf id) : id < g.rules.length := by
  unfold alternativesOf at h
  by_contra hid
  rw [List.getElem?_eq_none (by omega)] at h
  simp at h

theorem mem_alternatives_of_mem_alternativesOf {g : RuleSet} {id k : Nat} {a : Alternative Symbol}
    (h : (k, a) ∈ g.alternativesOf id) : (k, a) ∈ g.alternatives := by
  unfold alternativesOf at h
  cases hrule : g.rules[id]? with
  | none => simp [hrule] at h
  | some rule =>
    rw [hrule] at h
    exact List.mem_flatMap.2 ⟨rule, List.mem_of_getElem? hrule, h⟩

/-- Every alternative is one of a rule. -/
theorem exists_mem_alternativesOf {g : RuleSet} {k : Nat} {a : Alternative Symbol}
    (h : (k, a) ∈ g.alternatives) : ∃ r, (k, a) ∈ g.alternativesOf r := by
  obtain ⟨rule, hrule, ha⟩ := List.mem_flatMap.1 h
  obtain ⟨r, hr⟩ := List.mem_iff_getElem?.1 hrule
  refine ⟨r, ?_⟩
  unfold alternativesOf
  rwa [hr]

theorem mem_productions_iff {g : RuleSet} {p : ContextFreeRule String Nat} :
    p ∈ g.productions ↔
      ∃ k a, (k, a) ∈ g.alternativesOf p.input ∧ p.output = form a.sequence := by
  unfold productions
  rw [List.mem_flatMap]
  constructor
  · rintro ⟨id, -, hp⟩
    obtain ⟨⟨k, a⟩, ha, rfl⟩ := List.mem_map.1 hp
    exact ⟨k, a, ha, rfl⟩
  · rintro ⟨k, a, ha, hout⟩
    refine ⟨p.input, List.mem_range.2 (lt_length_of_mem_alternativesOf ha), ?_⟩
    refine List.mem_map.2 ⟨(k, a), ha, ?_⟩
    rw [← hout]

end RuleSet

/-! ## Forms -/

/-- The form of tokens: their names. -/
def formOf (tokens : List Token) : SententialForm := tokens.map fun t => .terminal t.name

theorem form_append (ss ts : List Symbol) : form (ss ++ ts) = form ss ++ form ts := by
  fun_induction form ss <;> simp_all [form]

/-- Where a form is cut, so is the run of symbols that it stands for. -/
theorem exists_of_form_eq_append {ss : List Symbol} {u v : SententialForm}
    (h : form ss = u ++ v) : ∃ us vs, ss = us ++ vs ∧ form us = u ∧ form vs = v := by
  induction u generalizing ss with
  | nil => exact ⟨[], ss, rfl, rfl, h⟩
  | cons x u ih =>
    induction ss with
    | nil => cases h
    | cons s ss ihs =>
      cases s with
      | terminal name id =>
        obtain ⟨rfl, hss⟩ := List.cons.inj h
        obtain ⟨us, vs, rfl, rfl, rfl⟩ := ih hss
        exact ⟨.terminal name id :: us, vs, rfl, rfl, rfl⟩
      | rule name id =>
        obtain ⟨rfl, hss⟩ := List.cons.inj h
        obtain ⟨us, vs, rfl, rfl, rfl⟩ := ih hss
        exact ⟨.rule name id :: us, vs, rfl, rfl, rfl⟩
      | empty =>
        obtain ⟨us, vs, rfl, hu, hv⟩ := ihs h
        exact ⟨.empty :: us, vs, rfl, hu, hv⟩

/-- A nonterminal in front of a form stands for a rule, after empty groups. -/
theorem exists_of_form_eq_nonterminal {ss : List Symbol} {id : Nat}
    (h : form ss = [.nonterminal id]) :
    ∃ name es fs, ss = es ++ .rule name id :: fs ∧ form es = [] ∧ form fs = [] := by
  induction ss with
  | nil => cases h
  | cons s ss ih =>
    cases s with
    | terminal name id => cases (List.cons.inj h).1
    | rule name id =>
      obtain ⟨heq, hss⟩ := List.cons.inj h
      cases heq
      exact ⟨name, [], ss, rfl, rfl, hss⟩
    | empty =>
      obtain ⟨name, es, fs, rfl, he, hf⟩ := ih h
      exact ⟨name, .empty :: es, fs, rfl, he, hf⟩

/-! ## Derivations -/

variable {g : RuleSet} {ss : List Symbol} {tokens : List Token}

/-- A symbol run whose form is that of the tokens derives them, without using a rule. -/
theorem derives_of_form_eq (h : form ss = formOf tokens) : Derives g ss tokens := by
  induction ss generalizing tokens with
  | nil =>
    obtain rfl : tokens = [] := by simpa [form, formOf] using h.symm
    exact ⟨.nil, rfl⟩
  | cons s ss ih =>
    cases s with
    | terminal name id =>
      cases tokens with
      | nil => cases h
      | cons t tokens =>
        obtain ⟨hname, hss⟩ := List.cons.inj h
        cases hname
        obtain ⟨d, hd⟩ := ih hss
        exact ⟨.terminal t rfl d, congrArg (t :: ·) hd⟩
    | rule name id =>
      cases tokens with
      | nil => cases h
      | cons t tokens => cases (List.cons.inj h).1
    | empty =>
      obtain ⟨d, hd⟩ := ih h
      exact ⟨.empty d, hd⟩

theorem derives_rule (name : String) {id k : Nat} {a : Alternative Symbol}
    (ha : (k, a) ∈ g.alternativesOf id) (h : Derives g a.sequence tokens) :
    Derives g [.rule name id] tokens := by
  obtain ⟨d, rfl⟩ := h
  exact ⟨.rule k a ha d .nil, by simp [Derivation.tokens]⟩

/-- A production replaces some rule in a run of symbols by the sequence of one of its alternatives. -/
theorem exists_parts_of_produces {u v : SententialForm} (hstep : g.cfg.Produces u v)
    (hu : form ss = u) : ∃ ls name id rs k a, ss = ls ++ .rule name id :: rs ∧
      (k, a) ∈ g.alternativesOf id ∧ form (ls ++ (a.sequence ++ rs)) = v := by
  obtain ⟨p, hp, hrewrite⟩ := hstep
  obtain ⟨k, a, ha, hout⟩ := RuleSet.mem_productions_iff.1 (List.mem_toFinset.1 hp)
  obtain ⟨l, r, hl, rfl⟩ := hrewrite.exists_parts
  rw [hl, List.append_assoc] at hu
  obtain ⟨ls, rest, rfl, rfl, hrest⟩ := exists_of_form_eq_append hu
  obtain ⟨ms, rs, rfl, hms, rfl⟩ := exists_of_form_eq_append hrest
  obtain ⟨name, es, fs, rfl, he, hf⟩ := exists_of_form_eq_nonterminal hms
  refine ⟨ls ++ es, name, p.input, fs ++ rs, k, a, by simp, ha, ?_⟩
  simp only [form_append, he, hf, hout, List.nil_append, List.append_assoc]

/-- The other way round: a rule in a run of symbols can be replaced. -/
theorem produces_of_mem_alternativesOf (name : String) {id k : Nat} {a : Alternative Symbol}
    (ha : (k, a) ∈ g.alternativesOf id) (ls rs : List Symbol) :
    g.cfg.Produces (form (ls ++ .rule name id :: rs)) (form (ls ++ (a.sequence ++ rs))) := by
  have hmem : ⟨id, form a.sequence⟩ ∈ g.productions := RuleSet.mem_productions_iff.2 ⟨k, a, ha, rfl⟩
  have hstep : g.cfg.Produces [.nonterminal id] (form a.sequence) :=
    ⟨⟨id, form a.sequence⟩, List.mem_toFinset.2 hmem, ContextFreeRule.Rewrites.input_output⟩
  rw [form_append, form_append, form_append, form, ← List.singleton_append]
  exact (hstep.append_right (form rs)).append_left (form ls)

/-- A production undone: what the form after it derives, the form before it does. -/
theorem exists_of_produces {u v : SententialForm} (hstep : g.cfg.Produces u v)
    (hu : form ss = u) : ∃ ts, form ts = v ∧ ∀ w, Derives g ts w → Derives g ss w := by
  obtain ⟨ls, name, id, rs, k, a, rfl, ha, hv⟩ := exists_parts_of_produces hstep hu
  refine ⟨ls ++ (a.sequence ++ rs), hv, fun w hw => ?_⟩
  obtain ⟨x, w, rfl, hx, hw⟩ := hw.exists_of_append
  obtain ⟨y, z, rfl, hy, hz⟩ := hw.exists_of_append
  exact hx.append ((derives_rule name ha hy).append hz)

theorem Derives.form_derives (h : Derives g ss tokens) :
    g.cfg.Derives (form ss) (formOf tokens) := by
  obtain ⟨d, rfl⟩ := h
  induction d with
  | nil => exact .refl _
  | empty rest ih => exact ih
  | terminal t h rest ih =>
    subst h
    exact ih.append_left [.terminal t.name]
  | @rule name r ss k a h inner rest ihi ih =>
    have hstep : g.cfg.Produces (form (.rule name r :: ss)) (form (a.sequence ++ ss)) :=
      produces_of_mem_alternativesOf name h [] ss
    rw [form_append] at hstep
    have hrest := ih.append_left (formOf inner.tokens)
    show g.cfg.Derives _ (formOf (inner.tokens ++ rest.tokens))
    rw [formOf, List.map_append]
    exact hstep.trans_derives ((ihi.append_right (form ss)).trans hrest)

/-- Tokens are derived exactly if the grammar derives their names. -/
theorem derives_iff : Derives g ss tokens ↔ g.cfg.Derives (form ss) (formOf tokens) := by
  refine ⟨Derives.form_derives, fun h => ?_⟩
  generalize hu : form ss = u at h
  induction h using Relation.ReflTransGen.head_induction_on generalizing ss with
  | refl => exact derives_of_form_eq hu
  | head hstep _ ih =>
    obtain ⟨ts, hts, hback⟩ := exists_of_produces hstep hu
    exact hback _ (ih hts)

/-- The language of the grammar: the names of the tokens that the start derives. -/
theorem mem_language_cfg_iff :
    tokens.map (·.name) ∈ g.cfg.language ↔ Derives g [g.start] tokens := by
  rw [derives_iff, ContextFreeGrammar.mem_language_iff]
  show g.cfg.Derives _ _ ↔ _
  rw [List.map_map]
  rfl

end Grammar

end Predictive
