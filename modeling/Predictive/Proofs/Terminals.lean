import Predictive.Proofs.Subrules

/-!
# Terminals

Names are listed as terminals when the symbols of the alternatives are resolved, each when it is first
met. The empty group is met too, under the empty name, before it is clear that it is no terminal. So the
terminals are the end of the input, those that stand in alternatives, and the empty name where some
alternative has an empty group (`RuleSet.mem_terminals_ofTexts`). No rule and no symbol of a compiled
text has the empty name (`lettered_of_readBlocks`), so it is a terminal that no symbol stands for
(`terminals_of_parse`).
-/

namespace Predictive.Grammar

/-! ## Terminals of rule texts -/

namespace RuleSet

variable {eof name : String} {texts : RuleTexts}

/-- The symbols of the alternatives are those for the items of the texts. -/
theorem exists_mem_alternatives_iff {s : Symbol} :
    (∃ p ∈ (ofTexts eof texts).alternatives, s ∈ p.2.sequence) ↔
      ∃ text ∈ texts, ∃ a ∈ text.2, ∃ i ∈ a.sequence, symbolOf eof texts i = s := by
  have hall : (ofTexts eof texts).alternatives.map (·.2) =
      (texts.flatMap (·.2)).map (Alternative.map (symbolOf eof texts)) :=
    map_alternatives_numberRules _ 0 texts
  constructor
  · rintro ⟨p, hp, hs⟩
    have hmem := hall ▸ List.mem_map_of_mem hp
    obtain ⟨a, ha, heq⟩ := List.mem_map.1 hmem
    obtain ⟨text, htext, ha⟩ := List.mem_flatMap.1 ha
    rw [← heq] at hs
    obtain ⟨i, hi, rfl⟩ := List.mem_map.1 hs
    exact ⟨text, htext, a, ha, i, hi, rfl⟩
  · rintro ⟨text, htext, a, ha, i, hi, rfl⟩
    have hmem : a.map (symbolOf eof texts) ∈ (ofTexts eof texts).alternatives.map (·.2) :=
      hall ▸ List.mem_map_of_mem (List.mem_flatMap.2 ⟨text, htext, ha⟩)
    obtain ⟨p, hp, heq⟩ := List.mem_map.1 hmem
    exact ⟨p, hp, heq ▸ List.mem_map_of_mem hi⟩

theorem mem_terminalNames_iff : name ∈ terminalNames eof texts ↔
    name = eof ∨ name ∉ texts.map (·.1) ∧ ∃ text ∈ texts, ∃ a ∈ text.2, ∃ i ∈ a.sequence,
      i.ident = name := by
  simp only [terminalNames, List.mem_eraseDups, List.mem_cons, List.mem_filter, List.mem_flatMap,
    List.mem_map, decide_eq_true_eq]
  exact or_congr_right and_comm

/-- An item is met under a name that no rule has if it stands for the terminal of this name, or for the
empty group if the name is empty. -/
theorem ident_eq_and_notMem_iff {i : Item} : i.ident = name ∧ name ∉ texts.map (·.1) ↔
    (∃ id, symbolOf eof texts i = .terminal name id) ∨
      name = "" ∧ "" ∉ texts.map (·.1) ∧ symbolOf eof texts i = .empty := by
  rcases symbolOf_cases eof texts i with ⟨rfl, hs⟩ | ⟨n, id, rfl, hn, hs⟩ | ⟨n, id, rfl, hn, hs⟩
  · rw [hs]
    constructor
    · rintro ⟨rfl, hname⟩
      exact .inr ⟨rfl, hname, rfl⟩
    · rintro (⟨_, ⟨⟩⟩ | ⟨rfl, hname, -⟩)
      exact ⟨rfl, hname⟩
  · rw [hs]
    constructor
    · rintro ⟨rfl, -⟩
      exact .inl ⟨id, rfl⟩
    · rintro (⟨_, ⟨⟩⟩ | ⟨-, -, ⟨⟩⟩)
      exact ⟨rfl, hn⟩
  · rw [hs]
    constructor
    · rintro ⟨rfl, hname⟩
      exact absurd (List.mem_of_getElem? hn) hname
    · rintro (⟨_, ⟨⟩⟩ | ⟨-, -, ⟨⟩⟩)

/-- A terminal of the name stands in some alternative. -/
def HasTerminal (g : RuleSet) (name : String) : Prop :=
  ∃ id, ∃ p ∈ g.alternatives, .terminal name id ∈ p.2.sequence

/-- Some alternative has an empty group. -/
def HasEmptyGroup (g : RuleSet) : Prop := ∃ p ∈ g.alternatives, .empty ∈ p.2.sequence

/-- The terminals are the end of the input, those that stand in alternatives, and the empty name if
some alternative has an empty group and no rule is called so. -/
theorem mem_terminals_ofTexts : name ∈ (ofTexts eof texts).terminals ↔
    name = eof ∨ (ofTexts eof texts).HasTerminal name ∨
      name = "" ∧ "" ∉ texts.map (·.1) ∧ (ofTexts eof texts).HasEmptyGroup := by
  refine mem_terminalNames_iff.trans (or_congr_right ?_)
  simp only [HasTerminal, HasEmptyGroup, exists_mem_alternatives_iff]
  constructor
  · rintro ⟨hname, text, htext, a, ha, i, hi, hident⟩
    rcases (@ident_eq_and_notMem_iff eof _ _ _).1 ⟨hident, hname⟩ with ⟨id, hs⟩ | ⟨rfl, hrule, hs⟩
    · exact .inl ⟨id, text, htext, a, ha, i, hi, hs⟩
    · exact .inr ⟨rfl, hrule, text, htext, a, ha, i, hi, hs⟩
  · rintro (⟨id, text, htext, a, ha, i, hi, hs⟩ | ⟨rfl, hrule, text, htext, a, ha, i, hi, hs⟩)
    · obtain ⟨hident, hname⟩ := ident_eq_and_notMem_iff.2 (.inl ⟨id, hs⟩)
      exact ⟨hname, text, htext, a, ha, i, hi, hident⟩
    · obtain ⟨hident, hname⟩ := ident_eq_and_notMem_iff.2 (.inr ⟨rfl, hrule, hs⟩)
      exact ⟨hname, text, htext, a, ha, i, hi, hident⟩

end RuleSet

/-! ## Names in texts -/

theorem subruleName_ne_empty (home : String) (number : Nat) : subruleName home number ≠ "" := by
  intro hempty
  have hbraced := braced_subruleName home number
  rw [hempty] at hbraced
  exact absurd hbraced List.not_mem_nil

variable {blocks : List Block}

/-- The block is named, and its right-hand side is built of names, with at least one character. -/
def Block.Lettered (b : Block) : Prop := b.name ≠ "" ∧ b.body.Grouped (· ≠ "") true

theorem lettered_of_readBlocks {text : String} (h : readBlocks text = .ok blocks) :
    ∀ b ∈ blocks, b.Lettered := by
  intro b hb
  obtain ⟨words, eof, hwords, -, hwrites⟩ := exists_tokens_of_readBlocks h
  have hlexeme : ∀ t ∈ (Tokenizer.ofText words text).collect.tokens, t.lexeme ≠ "" := fun t ht =>
    Vocabulary.lexeme_ne_empty hwords ht
  obtain ⟨head, hhead, s, hs, -, hname, hbody⟩ := ((hwrites blocks).2 rfl).exists_of_mem hb
  exact ⟨hname ▸ hlexeme head hhead, hbody.grouped fun t ht _ => hlexeme t (hs ht)⟩

/-- No rule of such blocks has the empty name. -/
theorem empty_notMem_names (h : ∀ b ∈ blocks, b.Lettered) : "" ∉ (desugarBlocks blocks).map (·.1) := by
  intro hmem
  rcases mem_names_iff.1 hmem with ⟨b, hb, hname⟩ | ⟨a, ha, hname⟩
  · exact (h b hb).1 hname
  · obtain ⟨⟨b, first⟩, hp, ha⟩ := mem_allAlternatives_iff.1 ha
    rcases (b.marked_desugar first a ha).1 with hown | hbrace
    · exact (h b (mem_of_mem_numbered hp)).1 (hown ▸ hname)
    · rw [hname] at hbrace
      exact absurd hbrace List.not_mem_nil

/-- No symbol of such blocks has the empty name. -/
theorem not_hasTerminal_empty (eof : String) (h : ∀ b ∈ blocks, b.Lettered) :
    ¬ (RuleSet.ofTexts eof (desugarBlocks blocks)).HasTerminal "" := by
  rintro ⟨id, hterminal⟩
  obtain ⟨text, htext, a, ha, i, hi, hs⟩ := RuleSet.exists_mem_alternatives_iff.1 hterminal
  obtain rfl : i = .name "" := by
    rw [← item_symbolOf eof (desugarBlocks blocks) i, hs]
    rfl
  obtain ⟨-, b, hb, first, hmem⟩ := exists_block_of_mem_desugarBlocks htext ha
  rcases Block.name_of_mem_sequence_desugar (h b hb).2 hmem hi with hne | ⟨p, -, hname⟩
  · exact hne rfl
  · exact subruleName_ne_empty _ _ hname.symm

/-! ## Compiled grammars -/

variable {text : String} {config : Config} {g : Grammar}

/-- The terminals of a compiled grammar are listed once each: the end of the input, which is number 0,
those that stand in alternatives, and the empty name if there is an empty group. So they are just the
end of the input and those that stand in alternatives if there is no empty group, or if the end of the
input has the empty name. -/
theorem terminals_of_parse (h : Grammar.parse text config = .ok g) :
    g.terminals.Nodup ∧ g.terminals[0]? = some config.eof ∧
      (∀ name, name ∈ g.terminals ↔
        name = config.eof ∨ g.HasTerminal name ∨ name = "" ∧ g.HasEmptyGroup) ∧
      ((∀ name, name ∈ g.terminals ↔ name = config.eof ∨ g.HasTerminal name) ↔
        config.eof = "" ∨ ¬ g.HasEmptyGroup) := by
  obtain ⟨b, blocks, hblocks, hrules⟩ := exists_blocks_of_readRules (compiled_of_parse h).2
  have hlettered := lettered_of_readBlocks hblocks
  have hterminal : ¬ g.HasTerminal "" := by
    rw [hrules]
    exact not_hasTerminal_empty config.eof hlettered
  have hmem (name : String) : name ∈ g.terminals ↔
      name = config.eof ∨ g.HasTerminal name ∨ name = "" ∧ g.HasEmptyGroup := by
    rw [hrules, RuleSet.mem_terminals_ofTexts, and_iff_right (empty_notMem_names hlettered)]
  refine ⟨?_, ?_, hmem, ?_⟩
  · rw [hrules]
    exact nodup_eraseDups _
  · rw [hrules]
    show (terminalNames _ _)[0]? = _
    simp [terminalNames, List.eraseDups_cons]
  · constructor
    · intro hall
      by_contra hnot
      obtain ⟨heof, hgroup⟩ := not_or.1 hnot
      have hempty : "" ∈ g.terminals := (hmem "").2 (.inr (.inr ⟨rfl, not_not.1 hgroup⟩))
      exact ((hall "").1 hempty).elim (fun h => heof h.symm) hterminal
    · intro hor name
      rw [hmem name, ← or_assoc]
      refine or_iff_left_of_imp fun ⟨hempty, hgroup⟩ => ?_
      rcases hor with heof | hnone
      · exact .inl (hempty.trans heof.symm)
      · exact absurd hgroup hnone

/-- An alternative with an empty group. -/
def emptyGroup : String := "S -> a ()"

/-- The block of `emptyGroup`. -/
def emptyGroupBlocks : List Block :=
  [{ name := "S", body := .concat (.name "a") .empty, multiChild := false, line := 1 }]

set_option maxRecDepth 4000 in
theorem readBlocks_emptyGroup : readBlocks emptyGroup = .ok emptyGroupBlocks :=
  readBlocks_of_exists ⟨_, rfl, by decide +kernel⟩

/-- The empty name is a third terminal, after the end of the input and `a`. -/
theorem terminals_of_parse_emptyGroup : ∃ g, Grammar.parse emptyGroup {} = .ok g ∧
    g.terminals = ["eof", "a", ""] ∧ g.HasEmptyGroup ∧ g.terminals.Nodup ∧
      ¬ ∀ name, name ∈ g.terminals ↔ name = "eof" ∨ g.HasTerminal name := by
  obtain ⟨g, hparse, hterminals, hsequences⟩ := exists_parse_and readBlocks_emptyGroup (fun g =>
    g.terminals = ["eof", "a", ""] ∧
      g.alternatives.any (fun p => p.2.sequence.contains .empty) = true)
    (by decide +kernel)
  obtain ⟨p, hp, hempty⟩ := List.any_eq_true.1 hsequences
  have hgroup : g.HasEmptyGroup := ⟨p, hp, List.contains_iff_mem.1 hempty⟩
  obtain ⟨hnodup, -, -, hlaw⟩ := terminals_of_parse hparse
  refine ⟨g, hparse, hterminals, hgroup, hnodup, fun hall => ?_⟩
  exact (hlaw.1 hall).elim (by decide) fun hnone => hnone hgroup

/-- It is not so that only the end of the input and the terminals of alternatives are listed: the empty
name is, and no symbol has it. -/
theorem not_forall_mem_terminals_iff :
    ¬ ∀ (text : String) (config : Config) (g : Grammar), Grammar.parse text config = .ok g →
      ∀ name, name ∈ g.terminals ↔
        name = config.eof ∨ ∃ p ∈ g.alternatives, ∃ id, .terminal name id ∈ p.2.sequence := by
  intro h
  obtain ⟨g, hparse, hterminals, hsequences⟩ := exists_parse_and readBlocks_emptyGroup (fun g =>
    g.terminals = ["eof", "a", ""] ∧
      g.alternatives.map (·.2.sequence) = [[.terminal "a" 1, .empty]])
    (by decide +kernel)
  rcases (h _ _ g hparse "").1 (by simp [hterminals]) with heof | ⟨p, hp, id, hmem⟩
  · exact absurd heof (by decide)
  · have hsequence : p.2.sequence ∈ g.alternatives.map (·.2.sequence) := List.mem_map_of_mem hp
    rw [hsequences, List.mem_singleton] at hsequence
    rw [hsequence] at hmem
    simp at hmem

end Predictive.Grammar
