import Predictive.Grammar.Basic
import Predictive.Proofs.BlockGrammar
import Predictive.Proofs.Lexemes
import Predictive.Proofs.ParseTable

/-!
# Names of rules and of sub-rules

An alternative made from a block has the name of the block, or is marked as one of a sub-rule, whose
name ends in a brace (`Block.marked_desugar`). The tokens of a text write its blocks
(`exists_tokens_of_readBlocks`), and none of them holds a brace, so the alternatives of the start rule
are all written as such, and its node is kept (`start_kept_of_readRules`).
-/

namespace Predictive.Grammar

/-! ## Names of alternatives -/

/-- A name of rules made from block `b`: that of the block or one that ends in a brace. -/
def Block.Gives (b : Block) (name : String) : Prop := name = b.name ∨ '}' ∈ name.toList

/-- The alternatives so far have names of rules made from `b`, and those with another name than `b`
are marked as alternatives of sub-rules. -/
def Desugaring.Marked (b : Block) (e : Desugaring) : Prop :=
  ∀ a ∈ e.alternatives, b.Gives a.name ∧ (a.subrule = true ↔ a.name ≠ b.name)

namespace Desugaring

variable {b : Block} {e : Desugaring} {owner : String}

theorem gives_freshName (b : Block) (e : Desugaring) : b.Gives (e.freshName b.name).1 := by
  refine .inr ?_
  show '}' ∈ String.toList _
  unfold freshName
  simp only [String.toList_append, List.mem_append]
  exact .inr (List.mem_singleton.2 rfl)

theorem Marked.freshName (h : e.Marked b) : (e.freshName b.name).2.Marked b := h

theorem Marked.complete (h : e.Marked b) (howner : b.Gives owner) (sequence : List Item) :
    (e.complete b owner sequence).Marked b := by
  intro a ha
  rcases List.mem_append.1 ha with ha | ha
  · exact h a ha
  · obtain rfl := List.mem_singleton.1 ha
    exact ⟨howner, by simp⟩

end Desugaring

theorem Expr.marked_desugar {b : Block} {owner : String} {e : Desugaring} (x : Expr)
    (he : e.Marked b) (howner : b.Gives owner) : (x.desugar b owner e).2.Marked b := by
  induction x generalizing owner e with
  | name n => exact he
  | empty => exact he
  | group a ih =>
    exact (ih he.freshName (e.gives_freshName b)).complete (e.gives_freshName b) _
  | concat l r ihl ihr => exact ihr (ihl he howner) howner
  | alt l r ihl ihr => exact (ihr (ihl he howner) howner).complete howner _
  | star a ih =>
    have hfresh := Desugaring.gives_freshName b (a.desugar b owner e).2
    exact (((ih he howner).freshName).complete hfresh _).complete hfresh _
  | optional a ih =>
    have hfresh := Desugaring.gives_freshName b (a.desugar b owner e).2
    exact (((ih he howner).freshName).complete hfresh _).complete hfresh _

theorem Block.marked_desugar (b : Block) (number : Nat) : (b.desugar number).Marked b :=
  (b.body.marked_desugar (e := { nextNumber := number }) (fun _ ha => absurd ha List.not_mem_nil)
    (.inl rfl)).complete (.inl rfl) _

/-- Each alternative comes from a block. -/
theorem exists_block_of_mem_desugarEach {number : Nat} {blocks : List Block}
    {part : String × List (Alternative Item)} (h : part ∈ desugarEach number blocks) :
    ∃ b ∈ blocks, ∃ k, part = (b.name, (b.desugar k).alternatives) := by
  induction blocks generalizing number with
  | nil => cases h
  | cons b blocks ih =>
    rcases List.mem_cons.1 h with rfl | h
    · exact ⟨b, List.mem_cons_self, number, rfl⟩
    · obtain ⟨c, hc, k, hpart⟩ := ih h
      exact ⟨c, List.mem_cons_of_mem _ hc, k, hpart⟩

/-- The first rule has the name of the first block. -/
theorem head?_desugarBlocks (b : Block) (blocks : List Block) :
    ∃ alternatives, (desugarBlocks (b :: blocks)).head? = some (b.name, alternatives) := by
  unfold desugarBlocks desugarEach
  simp [List.eraseDups_cons]

theorem exists_block_of_mem_desugarBlocks {blocks : List Block}
    {text : String × List (Alternative Item)} {a : Alternative Item}
    (htext : text ∈ desugarBlocks blocks) (ha : a ∈ text.2) :
    a.name = text.1 ∧ ∃ b ∈ blocks, ∃ k, a ∈ (b.desugar k).alternatives := by
  unfold desugarBlocks at htext
  obtain ⟨name, -, rfl⟩ := List.mem_map.1 htext
  obtain ⟨ha, hname⟩ := List.mem_filter.1 ha
  obtain ⟨part, hpart, ha⟩ := List.mem_flatMap.1 ha
  obtain ⟨b, hb, k, rfl⟩ := exists_block_of_mem_desugarEach hpart
  exact ⟨of_decide_eq_true hname, b, hb, k, ha⟩

/-- An alternative has the name of its rule. -/
theorem name_of_mem_alternativesOf {eof : String} {blocks : List Block} {r k : Nat}
    {a : Alternative Symbol}
    (ha : (k, a) ∈ (RuleSet.ofTexts eof (desugarBlocks blocks)).alternativesOf r) :
    (RuleSet.ofTexts eof (desugarBlocks blocks)).rules[r]?.map (·.name) = some a.name := by
  obtain ⟨text, a', htext, ha', rfl⟩ := RuleSet.exists_text_of_mem_alternativesOf ha
  obtain ⟨hname, -⟩ := exists_block_of_mem_desugarBlocks (List.mem_of_getElem? htext) ha'
  rw [← List.getElem?_map, RuleSet.map_name_rules_ofTexts, List.getElem?_map, htext]
  exact congrArg some hname.symm

/-! ## Compiled texts -/

/-- A text is read as the blocks that its tokens write. -/
theorem exists_tokens_of_readBlocks {text : String} (h : readBlocks text = .ok blocks) :
    ∃ words eof, Vocabulary.patterns = .ok words ∧
      (Tokenizer.ofText words text).collect.ending = .ok eof ∧
        ∀ bs, WritesBlocks (Tokenizer.ofText words text).collect.tokens bs ↔ bs = blocks := by
  unfold readBlocks at h
  obtain ⟨words, hwords, h⟩ := bind_eq_ok_iff.1 h
  dsimp only at h
  have hwords := mapError_eq_ok_iff.1 hwords
  cases hending : (Tokenizer.ofText words text).collect.ending with
  | error e =>
    unfold BlockReader.read at h
    obtain ⟨r, -, h⟩ := bind_eq_ok_iff.1 h
    rw [hending] at h
    cases h
  | ok eof =>
    rw [hending] at h
    refine ⟨words, eof, hwords, hending, fun bs => ?_⟩
    rw [← BlockReader.read_eq_ok_iff (fun t ht => Vocabulary.lexeme_of_op hwords ht) eof, h]
    exact ⟨fun h => (Except.ok.inj h).symm, fun h => congrArg _ h.symm⟩

/-- The names of the blocks of a text hold no brace. -/
theorem brace_not_mem_name {text : String} {blocks : List Block} (h : readBlocks text = .ok blocks)
    {b : Block} (hb : b ∈ blocks) : '}' ∉ b.name.toList := by
  obtain ⟨words, eof, hwords, -, hwrites⟩ := exists_tokens_of_readBlocks h
  obtain ⟨head, hhead, -, -, hname, hlexeme, -⟩ := ((hwrites blocks).2 rfl).exists_of_mem hb
  rw [← hlexeme]
  exact Vocabulary.brace_not_mem_lexeme hwords hhead hname

variable {text : String} {config : Config} {rules : RuleSet} {g : Grammar}

theorem exists_blocks_of_readRules (h : readRules text config = .ok rules) :
    ∃ b blocks, readBlocks text = .ok (b :: blocks) ∧
      rules = .ofTexts config.eof (desugarBlocks (b :: blocks)) := by
  unfold readRules at h
  obtain ⟨blocks, hblocks, h⟩ := bind_eq_ok_iff.1 h
  cases blocks with
  | nil => cases h
  | cons b blocks =>
    cases h
    exact ⟨b, blocks, hblocks, rfl⟩

/-- An alternative has the name of its rule, and it is one of a sub-rule just if that holds a brace. -/
theorem name_and_subrule_of_readRules (h : readRules text config = .ok rules) {r k : Nat}
    {a : Alternative Symbol} (ha : (k, a) ∈ rules.alternativesOf r) :
    a.name = rules.ruleName r ∧ (a.subrule = true ↔ '}' ∈ a.name.toList) := by
  obtain ⟨b, blocks, hblocks, rfl⟩ := exists_blocks_of_readRules h
  refine ⟨by rw [RuleSet.ruleName, name_of_mem_alternativesOf ha]; rfl, ?_⟩
  obtain ⟨text, a', htext, ha', rfl⟩ := RuleSet.exists_text_of_mem_alternativesOf ha
  obtain ⟨-, c, hc, number, hmem⟩ :=
    exists_block_of_mem_desugarBlocks (List.mem_of_getElem? htext) ha'
  obtain ⟨hgives, hmarked⟩ := c.marked_desugar number a' hmem
  show a'.subrule = true ↔ '}' ∈ a'.name.toList
  rw [hmarked]
  exact ⟨hgives.resolve_left, fun hbrace heq => brace_not_mem_name hblocks hc (heq ▸ hbrace)⟩

/-- No alternative of the start rule is one of a sub-rule. -/
theorem start_kept_of_readRules (h : readRules text config = .ok rules) {k : Nat}
    {a : Alternative Symbol} (ha : (k, a) ∈ rules.alternativesOf 0) : a.subrule = false := by
  obtain ⟨hname, hsub⟩ := name_and_subrule_of_readRules h ha
  obtain ⟨b, blocks, hblocks, rfl⟩ := exists_blocks_of_readRules h
  obtain ⟨alternatives, hhead⟩ := head?_desugarBlocks b blocks
  -- The name is that of a block, so it is not one of a sub-rule.
  have hstart : a.name = b.name := by
    rw [hname, RuleSet.ruleName, ← List.getElem?_map, RuleSet.map_name_rules_ofTexts,
      List.getElem?_map, ← List.head?_eq_getElem?, hhead]
    rfl
  rw [hstart] at hsub
  exact Bool.eq_false_iff.2 fun hbrace => brace_not_mem_name hblocks List.mem_cons_self (hsub.1 hbrace)

/-- What holds of every grammar that is compiled from a text. -/
theorem compiled_of_parse (h : Grammar.parse text config = .ok g) :
    g.Compiled ∧ readRules text config = .ok g.toRuleSet := by
  unfold Grammar.parse at h
  obtain ⟨rules, hrules, h⟩ := bind_eq_ok_iff.1 h
  obtain ⟨rfl, hcompiled⟩ := compiled_of_ofRuleSet h
  exact ⟨hcompiled, hrules⟩

theorem resolved_of_readRules (h : readRules text config = .ok rules) : rules.Resolved := by
  obtain ⟨b, blocks, -, rfl⟩ := exists_blocks_of_readRules h
  exact RuleSet.resolved_ofTexts _ _

theorem names_start_of_readRules (h : readRules text config = .ok rules) :
    rules.Names rules.start := by
  obtain ⟨b, blocks, -, rfl⟩ := exists_blocks_of_readRules h
  obtain ⟨alternatives, hhead⟩ := head?_desugarBlocks b blocks
  refine RuleSet.names_start ?_
  rw [RuleSet.length_rules_ofTexts]
  exact List.length_pos_of_mem (List.mem_of_mem_head? hhead)

theorem eof_of_readRules (h : readRules text config = .ok rules) :
    rules.eof = .terminal config.eof 0 ∧ rules.terminalNumber? config.eof = some 0 := by
  obtain ⟨b, blocks, -, rfl⟩ := exists_blocks_of_readRules h
  exact ⟨RuleSet.eof_ofTexts _ _, RuleSet.terminalNumber?_eof _ _⟩

end Predictive.Grammar
