import Predictive.Grammar.RuleSet

/-!
# Resolved names

The rules made of `texts` keep their names and alternatives (`alternativesOf_ofTexts`), the
alternatives of a rule have different numbers (`Resolved.unique`), and every symbol of an alternative
has the number that its name has in the rule set (`resolved_ofTexts`).
-/

namespace Predictive.Grammar

/-! ## Rules by number -/

/-- The symbols that stand for the items of `texts`. -/
def symbolOf (eof : String) (texts : RuleTexts) : Item → Symbol :=
  resolve (texts.map (·.1)) (terminalNames eof texts)

/-- The numbers of the alternatives of a rule go on from some first number. -/
theorem getElem?_numberRules (symbol : Item → Symbol) (number : Nat) (texts : RuleTexts) (r : Nat) :
    ∃ first, (numberRules symbol number texts)[r]? = texts[r]?.map fun text =>
      { name := text.1
        subrule := (text.2.head?.map (·.subrule)).getD false
        line := (text.2.head?.map (·.line)).getD 0
        alternatives := (text.2.zipIdx first).map fun a => (a.2, a.1.map symbol) } := by
  induction texts generalizing number r with
  | nil => exact ⟨0, by simp [numberRules]⟩
  | cons text texts ih =>
    cases r with
    | zero => exact ⟨number, by simp [numberRules]⟩
    | succ r =>
      obtain ⟨first, h⟩ := ih (number + text.2.length) r
      exact ⟨first, by simpa [numberRules] using h⟩

theorem map_name_numberRules (symbol : Item → Symbol) (number : Nat) (texts : RuleTexts) :
    (numberRules symbol number texts).map (·.name) = texts.map (·.1) := by
  induction texts generalizing number with
  | nil => rfl
  | cons text texts ih =>
    rw [numberRules, List.map_cons, List.map_cons, ih]

namespace RuleSet

variable {eof : String} {texts : RuleTexts} {r k : Nat} {a : Alternative Symbol}

theorem rules_ofTexts (eof : String) (texts : RuleTexts) :
    (ofTexts eof texts).rules = numberRules (symbolOf eof texts) 0 texts := rfl

theorem map_name_rules_ofTexts (eof : String) (texts : RuleTexts) :
    (ofTexts eof texts).rules.map (·.name) = texts.map (·.1) := by
  rw [rules_ofTexts]
  exact map_name_numberRules _ 0 texts

theorem length_rules_ofTexts (eof : String) (texts : RuleTexts) :
    (ofTexts eof texts).rules.length = texts.length := by
  simpa using congrArg List.length (map_name_rules_ofTexts eof texts)

/-- The alternatives of rule `r` are those of its text, numbered on from some first number. -/
theorem alternativesOf_ofTexts (eof : String) (texts : RuleTexts) (r : Nat) :
    ∃ first, (ofTexts eof texts).alternativesOf r =
      (((texts[r]?.map (·.2)).getD []).zipIdx first).map fun b =>
        (b.2, b.1.map (symbolOf eof texts)) := by
  obtain ⟨first, hr⟩ := getElem?_numberRules (symbolOf eof texts) 0 texts r
  refine ⟨first, ?_⟩
  unfold alternativesOf
  rw [rules_ofTexts, hr]
  cases texts[r]? <;> simp

theorem exists_text_of_mem_alternativesOf (h : (k, a) ∈ (ofTexts eof texts).alternativesOf r) :
    ∃ text b, texts[r]? = some text ∧ b ∈ text.2 ∧ a = b.map (symbolOf eof texts) := by
  obtain ⟨first, hr⟩ := alternativesOf_ofTexts eof texts r
  rw [hr, List.mem_map] at h
  obtain ⟨b, hb, heq⟩ := h
  have hmem := List.fst_mem_of_mem_zipIdx hb
  cases htext : texts[r]? with
  | none => simp [htext] at hmem
  | some text => exact ⟨text, b.1, rfl, by simpa [htext] using hmem, (Prod.ext_iff.1 heq).2.symm⟩

/-! ## Symbols -/

/-- The symbol has the number that its name has. -/
def Names (g : RuleSet) : Symbol → Prop
  | .terminal name id => g.terminalNumber? name = some id
  | .rule name id => g.ruleNumber? name = some id
  | .empty => True

/-- The symbols of all alternatives have the numbers of their names, and the alternatives of a rule
have different numbers. -/
structure Resolved (g : RuleSet) : Prop where
  names : ∀ {r k a}, (k, a) ∈ g.alternativesOf r → ∀ s ∈ a.sequence, g.Names s
  unique : ∀ {r k a b}, (k, a) ∈ g.alternativesOf r → (k, b) ∈ g.alternativesOf r → a = b

theorem ruleNumber?_ofTexts (eof : String) (texts : RuleTexts) (name : String) :
    (ofTexts eof texts).ruleNumber? name = (texts.map (·.1)).idxOf? name := by
  rw [← map_name_rules_ofTexts eof texts]
  unfold ruleNumber? List.idxOf?
  rw [List.findIdx?_map]
  rfl

theorem terminalNumber?_ofTexts (eof : String) (texts : RuleTexts) (name : String) :
    (ofTexts eof texts).terminalNumber? name = (terminalNames eof texts).idxOf? name := rfl

/-- An item of an alternative is resolved to a symbol with the number of its name. -/
theorem names_symbolOf {text : String × List (Alternative Item)} {b : Alternative Item} {i : Item}
    (htext : text ∈ texts) (hb : b ∈ text.2) (hi : i ∈ b.sequence) :
    (ofTexts eof texts).Names (symbolOf eof texts i) := by
  cases i with
  | empty => exact trivial
  | name n =>
    cases hn : (texts.map (·.1)).idxOf? n with
    | some id =>
      have hs : symbolOf eof texts (.name n) = .rule n id := by simp [symbolOf, resolve, hn]
      rw [hs]
      exact (ruleNumber?_ofTexts eof texts n).trans hn
    | none =>
      have hs : symbolOf eof texts (.name n) = .terminal n ((terminalNames eof texts).idxOf n) := by
        simp [symbolOf, resolve, hn]
      rw [hs]
      show (ofTexts eof texts).terminalNumber? n = some _
      rw [List.idxOf?_eq_none_iff] at hn
      have hmem : n ∈ terminalNames eof texts := by
        unfold terminalNames
        rw [List.mem_eraseDups]
        refine List.mem_cons_of_mem _ (List.mem_filter.2 ⟨?_, by simpa using hn⟩)
        have hident : n ∈ b.sequence.map (·.ident) := List.mem_map.2 ⟨_, hi, rfl⟩
        exact List.mem_flatMap.2 ⟨text, htext, List.mem_flatMap.2 ⟨b, hb, hident⟩⟩
      rw [terminalNumber?_ofTexts]
      exact List.findIdx?_eq_some_of_exists ⟨n, hmem, beq_self_eq_true n⟩

theorem resolved_ofTexts (eof : String) (texts : RuleTexts) : (ofTexts eof texts).Resolved where
  names h s hs := by
    obtain ⟨text, b, htext, hb, rfl⟩ := exists_text_of_mem_alternativesOf h
    obtain ⟨i, hi, rfl⟩ := List.mem_map.1 hs
    exact names_symbolOf (List.mem_of_getElem? htext) hb hi
  unique {r k a b} ha hb := by
    obtain ⟨first, hr⟩ := alternativesOf_ofTexts eof texts r
    rw [hr] at ha hb
    rw [List.mem_map] at ha hb
    obtain ⟨a', ha, hak⟩ := ha
    obtain ⟨b', hb, hbk⟩ := hb
    rw [List.mem_zipIdx_iff_le_and_getElem?_sub] at ha hb
    have hk : a'.2 = b'.2 := (Prod.ext_iff.1 hak).1.trans (Prod.ext_iff.1 hbk).1.symm
    have hab : a'.1 = b'.1 := Option.some.inj (ha.2.symm.trans (hk ▸ hb.2))
    have hmap := congrArg (Alternative.map (symbolOf eof texts)) hab
    exact (Prod.ext_iff.1 hak).2.symm.trans (hmap.trans (Prod.ext_iff.1 hbk).2)

/-- If no two rules have the same name, a rule has the number of its name. -/
theorem ruleNumber?_ruleName (hr : r < (ofTexts eof texts).rules.length)
    (hnodup : (texts.map (·.1)).Nodup) :
    (ofTexts eof texts).ruleNumber? ((ofTexts eof texts).ruleName r) = some r := by
  have hnames := map_name_rules_ofTexts eof texts
  have hlt : r < (texts.map (·.1)).length := by
    rwa [← hnames, List.length_map]
  have hname : (texts.map (·.1))[r] = (ofTexts eof texts).ruleName r := by
    simp only [← hnames, ruleName, List.getElem_map, List.getElem?_eq_getElem hr]
    rfl
  rw [ruleNumber?_ofTexts, List.idxOf?_eq_some_iff]
  refine ⟨hlt, hname, fun j hj hsame => ?_⟩
  have hjr : j = r := (List.getElem_inj hnodup).1 (hsame.trans hname.symm)
  omega

/-- The start has the number of its name. -/
theorem names_start {g : RuleSet} (h : 0 < g.rules.length) : g.Names g.start := by
  obtain ⟨rules, terminals⟩ := g
  cases rules with
  | nil => cases h
  | cons rule rules => simp [Names, start, ruleName, ruleNumber?, List.findIdx?_cons]

/-! ## Terminals -/

/-- A terminal has the name with its number. -/
theorem terminalName_eq {g : RuleSet} {name : String} {id : Nat}
    (h : g.terminalNumber? name = some id) : g.terminalName id = name := by
  unfold terminalNumber? at h
  obtain ⟨hlt, hget, -⟩ := List.idxOf?_eq_some_iff.1 h
  unfold terminalName
  rw [List.getElem?_eq_getElem hlt, hget]
  rfl

/-! ## The end of the input -/

theorem terminalNumber?_eof (eof : String) (texts : RuleTexts) :
    (ofTexts eof texts).terminalNumber? eof = some 0 := by
  rw [terminalNumber?_ofTexts]
  unfold terminalNames
  simp [List.eraseDups_cons, List.idxOf?_cons]

/-- A name with the number 0 is that of the end of the input. -/
theorem eq_eof_of_terminalNumber?_eq_zero {name : String}
    (h : (ofTexts eof texts).terminalNumber? name = some 0) : name = eof :=
  (terminalName_eq h).symm.trans (terminalName_eq (terminalNumber?_eof eof texts))

theorem eof_ofTexts (eof : String) (texts : RuleTexts) :
    (ofTexts eof texts).eof = .terminal eof 0 := by
  unfold RuleSet.eof
  rw [terminalName_eq (terminalNumber?_eof eof texts)]

end RuleSet

end Predictive.Grammar
