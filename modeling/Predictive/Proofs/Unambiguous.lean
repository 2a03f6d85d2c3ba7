import Predictive.Proofs.Parsing

/-!
# Compiled grammars are unambiguous

In a compiled grammar, a rule has no more than one derivation of the same tokens
(`Compiled.derivation_of_rule_unique`), whether the start leads to it or not: where nothing comes
after a rule, some terminal still predicts its alternatives. Derivations do not look at the
lexemes, so the names of the tokens alone determine the derivation (`bare_eq_of_map_name_eq`).
-/

namespace Predictive.Grammar

namespace Derivation

variable {g : RuleSet} {ss : List Symbol}

/-- The derivation with other tokens of the same names. -/
def relabel (f : Token → Token) (hf : ∀ t, (f t).name = t.name) {ss : List Symbol} :
    Derivation g ss → Derivation g ss
  | nil => nil
  | empty rest => empty (rest.relabel f hf)
  | terminal t h rest => terminal (f t) ((hf t).trans h) (rest.relabel f hf)
  | rule k a h inner rest => rule k a h (inner.relabel f hf) (rest.relabel f hf)

theorem tokens_relabel (f : Token → Token) (hf : ∀ t, (f t).name = t.name)
    (d : Derivation g ss) : (d.relabel f hf).tokens = d.tokens.map f := by
  induction d with
  | nil => rfl
  | empty rest ih => exact ih
  | terminal t h rest ih => exact congrArg (f t :: ·) ih
  | rule k a h inner rest ihi ih => simp [relabel, tokens, ihi, ih]

/-- The derivation of terminals: its tokens have nothing but names. -/
def bare (d : Derivation g ss) : Derivation g ss :=
  d.relabel (fun t => { name := t.name, lexeme := "", line := 0 }) fun _ => rfl

theorem tokens_bare (d : Derivation g ss) :
    d.bare.tokens = (d.tokens.map (·.name)).map fun name => { name, lexeme := "", line := 0 } := by
  rw [bare, tokens_relabel, List.map_map]
  rfl

end Derivation

/-- A rule has no more than one derivation of the same tokens. Nothing needs to come after them. -/
theorem Compiled.derivation_of_rule_unique {g : Grammar} (hg : g.Compiled) (hr : g.Resolved)
    {name : String} {r : Nat} (d e : Derivation g.toRuleSet [.rule name r])
    (h : d.tokens = e.tokens) : d = e := by
  obtain ⟨k, a, ha, d, rfl⟩ := d.exists_eq_rule
  obtain ⟨l, b, hb, e, rfl⟩ := e.exists_eq_rule
  have htokens : d.tokens ++ [] = e.tokens ++ [] := h
  obtain rfl := hg.alternative_unique hr ha hb d e RuleSet.heads_nil RuleSet.heads_nil htokens
  obtain rfl := hr.unique ha hb
  obtain ⟨rfl, -⟩ := hg.derivation_unique hr d e (hr.names ha) (RuleSet.allows_alternative ha)
    RuleSet.heads_nil RuleSet.heads_nil htokens
  rfl

variable {text : String} {config : Config} {g : Grammar}

/-- Every grammar that is compiled is unambiguous: two derivations from the same rule of the same
terminals are the same derivation of these terminals, and two derivations of the same tokens are
equal. -/
theorem bare_eq_of_map_name_eq (h : Grammar.parse text config = .ok g) {name : String} {r : Nat}
    (d e : Derivation g.toRuleSet [.rule name r]) :
    (d.tokens.map (·.name) = e.tokens.map (·.name) → d.bare = e.bare) ∧
      (d.tokens = e.tokens → d = e) := by
  obtain ⟨hcompiled, hrules⟩ := compiled_of_parse h
  have hresolved := resolved_of_readRules hrules
  refine ⟨fun hnames => ?_, hcompiled.derivation_of_rule_unique hresolved d e⟩
  apply hcompiled.derivation_of_rule_unique hresolved
  rw [Derivation.tokens_bare, Derivation.tokens_bare, hnames]

/-- All derivations of a sum of two numbers are the same but for the lexemes. -/
theorem bare_eq_of_map_name_eq_sums : ∃ g, Grammar.parse sums {} = .ok g ∧
    ∃ d : Derivation g.toRuleSet [g.start], d.tokens.map (·.name) = ["num", "plus", "num"] ∧
      ∀ e : Derivation g.toRuleSet [g.start], e.tokens.map (·.name) = ["num", "plus", "num"] →
        e.bare = d.bare := by
  obtain ⟨g, hparse, hfree, ⟨tree, last, hresult⟩, -⟩ := exists_parse_sums
  obtain ⟨w, final, hgives, hrun, -⟩ := exists_accepts_of_parseTokens hresult
  obtain ⟨d, ending, rfl, hending, -⟩ := (accepts_iff_of_parse hparse hfree).1 hrun
  have hd : d.tokens = sumTokens :=
    TokenTape.eq_drop_of_gives hgives
      (fun t ht => name_ne_of_mem_tokens hfree (by simp [RuleSet.start]) d ht) hending
      (show ∀ t ∈ sumTokens, _ from by decide)
  have hnames : d.tokens.map (·.name) = ["num", "plus", "num"] := by
    rw [hd]
    rfl
  exact ⟨g, hparse, d, hnames, fun e he =>
    (bare_eq_of_map_name_eq hparse e d).1 (he.trans hnames.symm)⟩

end Predictive.Grammar
