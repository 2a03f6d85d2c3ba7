import Predictive.Proofs.ParseBound
import Predictive.Proofs.RuleNames

/-!
# Parsing is exact

A compiled grammar in which no right-hand side names the end of the input is parsed exactly: tokens
have a tree just if the context-free grammar of the rules derives their names
(`Grammar.parseTokens_ok_iff`), and the tree is the collapse of the only derivation of the tokens
before the end of the input (`Grammar.parseTokens_eq_tree`).
-/

namespace Predictive

open TokenStream (Gives)

namespace Grammar

variable {text : String} {config : Config} {g : Grammar}

/-! ## The end of the input in derivations -/

/-- A rule set whose alternatives do not name the end of the input derives no token of that name. -/
theorem name_ne_of_mem_tokens {rules : RuleSet} {eof : String}
    (hfree : ∀ a ∈ rules.alternatives, ∀ id, .terminal eof id ∉ a.2.sequence) {ss : List Symbol}
    (hss : ∀ id, .terminal eof id ∉ ss) (d : Derivation rules ss) {t : Token} (ht : t ∈ d.tokens) :
    t.name ≠ eof := by
  induction d with
  | nil => cases ht
  | empty rest ih => exact ih (fun id hid => hss id (List.mem_cons_of_mem _ hid)) ht
  | @terminal name id ss u hu rest ih =>
    rcases List.mem_cons.1 ht with rfl | ht
    · rintro rfl
      exact hss id (hu ▸ List.mem_cons_self)
    · exact ih (fun id hid => hss id (List.mem_cons_of_mem _ hid)) ht
  | rule k a h inner rest ihi ih =>
    rcases List.mem_append.1 ht with ht | ht
    · exact ihi (hfree _ (RuleSet.mem_alternatives_of_mem_alternativesOf h)) ht
    · exact ih (fun id hid => hss id (List.mem_cons_of_mem _ hid)) ht

theorem endFree (h : Grammar.parse text config = .ok g)
    (hfree : ∀ a ∈ g.alternatives, ∀ id, .terminal config.eof id ∉ a.2.sequence) :
    Parse.Machine.EndFree g.toRuleSet := by
  obtain ⟨-, hrules⟩ := compiled_of_parse h
  have hresolved := resolved_of_readRules hrules
  intro r k a ha name hmem
  obtain rfl : name = config.eof := by
    obtain ⟨b, blocks, -, hofTexts⟩ := exists_blocks_of_readRules hrules
    have hnumber : g.terminalNumber? name = some 0 := hresolved.names ha _ hmem
    rw [hofTexts] at hnumber
    exact RuleSet.eq_eof_of_terminalNumber?_eq_zero hnumber
  exact hfree _ (RuleSet.mem_alternatives_of_mem_alternativesOf ha) 0 hmem

/-- The machine accepts exactly the derivations of the start with the end of the input after them. -/
theorem accepts_iff_of_parse (h : Grammar.parse text config = .ok g)
    (hfree : ∀ a ∈ g.alternatives, ∀ id, .terminal config.eof id ∉ a.2.sequence)
    {final : Parse.Machine} {w : List Token} :
    (∃ n, Parse.Machine.Accepts g final n (.start g) w) ↔
      ∃ (d : Derivation g.toRuleSet [g.start]) (t : Token), w = d.tokens ++ [t] ∧
        t.name = config.eof ∧ final = { stack := [], root := some d.tree } := by
  obtain ⟨hcompiled, hrules⟩ := compiled_of_parse h
  obtain ⟨heof, hnumber⟩ := eof_of_readRules hrules
  exact Parse.Machine.accepts_start_iff hcompiled (resolved_of_readRules hrules) (endFree h hfree)
    (start_kept_of_readRules hrules) heof hnumber

/-! ## A grammar of sums -/

/-- Sums of numbers and of parenthesised sums, any of which can be left out. -/
def sums : String := "E -> T (plus T)* [>1]\nT -> num | (open E close)?"

/-- The blocks of `sums`. -/
def sumsBlocks : List Block :=
  [{ name := "E"
     body := .concat (.name "T") (.star (.group (.concat (.name "plus") (.name "T"))))
     multiChild := true
     line := 1 },
   { name := "T"
     body := .alt (.name "num")
       (.optional (.group (.concat (.concat (.name "open") (.name "E")) (.name "close"))))
     multiChild := false
     line := 2 }]

/-- The blocks of a text, where the tokens of grammar texts are defined as given and the text is cut
on the nondeterministic automaton. -/
def readBlocksBy (definitions : List Char) (text : String) : Except Error (List Block) := do
  let patterns ← (Definitions.defineLines [] 0 (Text.lines definitions)).mapError fun e =>
    { line := e.line, fault := .vocabulary e }
  let pieces := Scanner.cut (Scanner.pieceBy (Patterns.joined patterns)) {} text.toList.length
    { rest := text.toList }
  BlockReader.read pieces.1 pieces.2

theorem readBlocks_eq_readBlocksBy {definitions : List Char}
    (h : Vocabulary.definitions = String.ofList definitions) (text : String) :
    readBlocks text = readBlocksBy definitions text := by
  unfold readBlocks readBlocksBy Vocabulary.patterns PatternSet.parse
  rw [h, String.toList_ofList]
  cases Definitions.defineLines [] 0 (Text.lines definitions) with
  | error e => rfl
  | ok patterns =>
    show BlockReader.read (Tokenizer.ofText (.ofPatterns patterns) text).cut.1
      (Tokenizer.ofText (.ofPatterns patterns) text).cut.2 = _
    rw [Tokenizer.cut_ofText patterns text le_rfl]
    rfl

/-- The blocks of a fixed text can be computed where the definitions are given as a list. -/
theorem readBlocks_of_exists {text : String} {blocks : List Block}
    (h : ∃ definitions, Vocabulary.definitions = String.ofList definitions ∧
      readBlocksBy definitions text = .ok blocks) :
    readBlocks text = .ok blocks := by
  obtain ⟨definitions, hdefinitions, hread⟩ := h
  rw [readBlocks_eq_readBlocksBy hdefinitions, hread]

set_option maxRecDepth 4000 in
theorem readBlocks_sums : readBlocks sums = .ok sumsBlocks :=
  readBlocks_of_exists ⟨_, rfl, by decide +kernel⟩

/-- The tokens of `1+2`. -/
def sumTokens : List Token :=
  [{ name := "num", lexeme := "1", line := 1 }, { name := "plus", lexeme := "+", line := 1 },
    { name := "num", lexeme := "2", line := 1 }]

theorem exists_ok_iff {σ : Type} {answer : Option (Except ParseError Node × σ)} :
    (∃ tree last, answer = some (.ok tree, last)) ↔ answer.any (·.1.isOk) = true := by
  constructor
  · rintro ⟨tree, last, rfl⟩
    rfl
  · intro h
    match answer with
    | some (.ok tree, last) => exact ⟨tree, last, rfl⟩

/-- What is decided of the tree of an answer, the tree has. -/
theorem exists_ok_of_any {σ : Type} {answer : Option (Except ParseError Node × σ)} {p : Node → Bool}
    (h : (answer.bind (·.1.toOption)).any p = true) :
    ∃ tree last, answer = some (.ok tree, last) ∧ p tree = true := by
  obtain ⟨tree, htree, hp⟩ := (Option.any_eq_true _ _).1 h
  obtain ⟨⟨result, last⟩, rfl, hok⟩ := Option.bind_eq_some_iff.1 htree
  cases result with
  | error e => cases hok
  | ok node =>
    obtain rfl := Option.some.inj hok
    exact ⟨node, last, rfl, hp⟩

/-- What is decided of the rules of blocks, a text has that is read as these blocks and compiled. -/
theorem exists_parse_and {text : String} {b : Block} {blocks : List Block}
    (hread : readBlocks text = .ok (b :: blocks)) (P : Grammar → Prop) [DecidablePred P]
    (h : (match ofRuleSet (.ofTexts eofName (desugarBlocks (b :: blocks))) with
      | .ok g => decide (P g)
      | .error _ => false) = true) :
    ∃ g, Grammar.parse text {} = .ok g ∧ P g := by
  split at h
  · next g hg =>
    refine ⟨g, ?_, of_decide_eq_true h⟩
    unfold Grammar.parse readRules
    rw [hread]
    exact hg
  · cases h

/-- What is decided of the rules of `sums`, the compiled text has. -/
theorem exists_parse_sums_and (P : Grammar → Prop) [DecidablePred P]
    (h : (match ofRuleSet (.ofTexts eofName (desugarBlocks sumsBlocks)) with
      | .ok g => decide (P g)
      | .error _ => false) = true) :
    ∃ g, Grammar.parse sums {} = .ok g ∧ P g :=
  exists_parse_and readBlocks_sums P h

/-- The grammar of sums does not name the end of the input, and parses a sum, but not without its
operator. -/
theorem exists_parse_sums : ∃ g, Grammar.parse sums {} = .ok g ∧
    (∀ a ∈ g.alternatives, ∀ id, .terminal eofName id ∉ a.2.sequence) ∧
      (∃ tree tape, g.parseTokens (TokenTape.ofTokens sumTokens {}) = some (.ok tree, tape)) ∧
        ¬ ∃ tree tape, g.parseTokens (TokenTape.ofTokens (sumTokens.eraseIdx 1) {}) =
          some (.ok tree, tape) := by
  obtain ⟨g, hg, hfree, hsum, hother⟩ := exists_parse_sums_and (fun g =>
    (∀ a ∈ g.alternatives, .name eofName ∉ a.2.sequence.map Symbol.item) ∧
      (g.parseTokens (TokenTape.ofTokens sumTokens {})).any (·.1.isOk) = true ∧
        (g.parseTokens (TokenTape.ofTokens (sumTokens.eraseIdx 1) {})).any (·.1.isOk) = false)
    (by decide +kernel)
  refine ⟨g, hg, fun a ha id hmem => ?_, exists_ok_iff.2 hsum, fun hok => ?_⟩
  · exact hfree a ha (List.mem_map.2 ⟨_, hmem, rfl⟩)
  · rw [exists_ok_iff.1 hok] at hother
    cases hother

/-! ## Exactness -/

/-- A token list is parsed just if the names of its tokens are in the language of the grammar. -/
theorem parseTokens_ok_iff (h : Grammar.parse text config = .ok g)
    (hfree : ∀ a ∈ g.alternatives, ∀ id, .terminal config.eof id ∉ a.2.sequence)
    {tokens : List Token} (htokens : ∀ t ∈ tokens, t.name ≠ config.eof) :
    (∃ tree tape, g.parseTokens (TokenTape.ofTokens tokens config) = some (.ok tree, tape)) ↔
      tokens.map (·.name) ∈ g.cfg.language := by
  rw [mem_language_cfg_iff]
  constructor
  · rintro ⟨tree, tape, hparse⟩
    obtain ⟨w, final, hgives, hrun, -⟩ := exists_accepts_of_parseTokens hparse
    obtain ⟨d, t, rfl, ht, -⟩ := (accepts_iff_of_parse h hfree).1 hrun
    have hd : ∀ x ∈ d.tokens, x.name ≠ config.eof := fun x hx =>
      name_ne_of_mem_tokens hfree (by simp [RuleSet.start]) d hx
    exact ⟨d, TokenTape.eq_drop_of_gives hgives hd ht htokens⟩
  · rintro ⟨d, rfl⟩
    obtain ⟨hcompiled, hrules⟩ := compiled_of_parse h
    have hhalts := Parse.alwaysHalts hcompiled (resolved_of_readRules hrules)
    obtain ⟨last, hgives⟩ := (TokenTape.ofTokens d.tokens config).exists_gives
    have hrun := (accepts_iff_of_parse h hfree).2
      ⟨d, (TokenTape.ofTokens d.tokens config).endToken, rfl, rfl, rfl⟩
    change Gives last _ (d.tokens ++ [_]) at hgives
    obtain ⟨t, ts, hts⟩ : ∃ t ts,
        d.tokens ++ [(TokenTape.ofTokens d.tokens config).endToken] = t :: ts :=
      List.exists_cons_of_ne_nil (by simp)
    have hlen := congrArg List.length hts
    rw [List.length_append, List.length_singleton, List.length_cons] at hlen
    rw [hts] at hgives hrun
    cases hgives with
    | cons hnext hrest =>
      refine ⟨d.tree, last, parseTokens_of_accepts hhalts hnext hrest ?_ hrun⟩
      cases hnext
      show ts.length ≤ d.tokens.length - 1 + 1
      omega

/-- A sum is a sentence; without its operator it is not. -/
theorem parseTokens_ok_iff_sums : ∃ g, Grammar.parse sums {} = .ok g ∧
    ["num", "plus", "num"] ∈ g.cfg.language ∧ ["num", "num"] ∉ g.cfg.language := by
  obtain ⟨g, hparse, hfree, hsum, hother⟩ := exists_parse_sums
  have hsentence := parseTokens_ok_iff hparse hfree (show ∀ t ∈ sumTokens, _ from by decide)
  have hnone := parseTokens_ok_iff hparse hfree (show ∀ t ∈ sumTokens.eraseIdx 1, _ from by decide)
  exact ⟨g, hparse, hsentence.1 hsum, fun hmem => hother (hnone.2 hmem)⟩

/-- A tree is the collapse of the only derivation of the tokens that were read before the end of the
input, and these are its leaves. -/
theorem parseTokens_eq_tree {σ : Type} [TokenStream σ] (h : Grammar.parse text config = .ok g)
    (hfree : ∀ a ∈ g.alternatives, ∀ id, .terminal config.eof id ∉ a.2.sequence)
    {stream last : σ} {tree : Node} (hparse : g.parseTokens stream = some (.ok tree, last)) :
    ∃ (tokens : List Token) (ending : Token) (d : Derivation g.toRuleSet [g.start]),
      Gives last stream (tokens ++ [ending]) ∧ ending.name = config.eof ∧
        (∀ t ∈ tokens, t.name ≠ config.eof) ∧
          d.tokens = tokens ∧ (∀ e : Derivation g.toRuleSet [g.start], e.tokens = tokens → e = d) ∧
            tree = d.tree ∧ tree.leaves = tokens.map fun t => (t.name, t.lexeme) := by
  obtain ⟨w, final, hgives, hrun, hresult⟩ := exists_accepts_of_parseTokens hparse
  obtain ⟨d, ending, rfl, hending, rfl⟩ := (accepts_iff_of_parse h hfree).1 hrun
  obtain ⟨hcompiled, hrules⟩ := compiled_of_parse h
  have htree : tree = d.tree := (Except.ok.inj hresult).symm
  refine ⟨d.tokens, ending, d, hgives, hending, fun t ht => ?_, rfl, fun e he => ?_, htree, ?_⟩
  · exact name_ne_of_mem_tokens hfree (by simp [RuleSet.start]) d ht
  · have hnames : ∀ s ∈ [g.start], g.Names s := fun s hs =>
      List.mem_singleton.1 hs ▸ names_start_of_readRules hrules
    exact (hcompiled.derivation_unique (resolved_of_readRules hrules) e d hnames
      RuleSet.allows_start RuleSet.heads_nil RuleSet.heads_nil (congrArg (· ++ []) he)).1
  · rw [htree]
    exact d.leaves_tree

/-- The tree of a sum is the collapse of its derivation. -/
theorem parseTokens_eq_tree_sums : ∃ g tree last, Grammar.parse sums {} = .ok g ∧
    g.parseTokens (TokenTape.ofTokens sumTokens {}) = some (.ok tree, last) ∧
      ∃ d : Derivation g.toRuleSet [g.start], d.tokens = sumTokens ∧ tree = d.tree ∧
        tree.leaves = [("num", "1"), ("plus", "+"), ("num", "2")] := by
  obtain ⟨g, hparse, hfree, ⟨tree, last, hresult⟩, -⟩ := exists_parse_sums
  obtain ⟨tokens, ending, d, hgives, hending, hnames, hd, -, htree, hleaves⟩ :=
    parseTokens_eq_tree hparse hfree hresult
  have htokens : tokens = sumTokens :=
    TokenTape.eq_drop_of_gives hgives hnames hending (show ∀ t ∈ sumTokens, _ from by decide)
  refine ⟨g, tree, last, hparse, hresult, d, hd.trans htokens, htree, ?_⟩
  rw [hleaves, htokens]
  rfl

end Grammar

end Predictive
