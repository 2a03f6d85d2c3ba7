import Predictive.Proofs.Numbering

/-!
# Grammars without lines

Line numbers serve messages only. Rules without lines have the same FIRST and FOLLOW sets and the same
table, and are refused for the same fault (`unlined_ofRuleSet`).
-/

namespace Predictive

namespace Grammar

/-! ## Forgetting lines -/

/-- The alternative without its line. -/
def Alternative.unlined {σ : Type} (a : Alternative σ) : Alternative σ := { a with line := 0 }

/-- The rule without lines. -/
def Rule.unlined (r : Rule) : Rule :=
  { r with line := 0, alternatives := r.alternatives.map fun a => (a.1, a.2.unlined) }

/-- The rules without lines. -/
def RuleSet.unlined (g : RuleSet) : RuleSet := { g with rules := g.rules.map Rule.unlined }

/-- The entry of the table without the line of its alternative. -/
def Cell.unlined (c : Cell) : Cell := { c with alternative := c.alternative.unlined }

/-- The error without its line. -/
def Error.unlined (e : Error) : Error := { e with line := 0 }

end Grammar

/-- The grammar without lines. -/
def Grammar.unlined (g : Grammar) : Grammar :=
  { g.toRuleSet.unlined with
    firsts := g.firsts
    follows := g.follows
    table := g.table.map (List.map Grammar.Cell.unlined) }

namespace Grammar

/-- The outcome of compiling a text, without lines. -/
def unlinedResult (outcome : Except Error Grammar) : Except Error Grammar :=
  match outcome with
  | .ok g => .ok g.unlined
  | .error e => .error e.unlined

/-! ## Sets -/

namespace RuleSet

variable (g : RuleSet)

@[simp]
theorem length_rules_unlined : g.unlined.rules.length = g.rules.length :=
  List.length_map _

@[simp]
theorem alternativesOf_unlined (r : Nat) :
    g.unlined.alternativesOf r = (g.alternativesOf r).map fun a => (a.1, a.2.unlined) := by
  unfold alternativesOf unlined
  rw [List.getElem?_map]
  cases g.rules[r]? <;> rfl

@[simp]
theorem ruleName_unlined (r : Nat) : g.unlined.ruleName r = g.ruleName r := by
  unfold ruleName unlined
  rw [List.getElem?_map]
  cases g.rules[r]? <;> rfl

@[simp]
theorem terminalName_unlined (t : Nat) : g.unlined.terminalName t = g.terminalName t := rfl

@[simp]
theorem unlined_unlined : g.unlined.unlined = g.unlined := by
  have hrule (r : Rule) : r.unlined.unlined = r.unlined := by
    simp [Rule.unlined, Alternative.unlined]
  simp [unlined, hrule]

theorem union_unlined (firsts : Firsts) (as : List (Nat × Alternative Symbol)) :
    firsts.union (as.map fun a => (a.1, a.2.unlined)) = firsts.union as := by
  unfold Firsts.union
  rw [List.map_map]
  rfl

theorem visit_unlined (depth : Nat) : g.unlined.visit depth = g.visit depth := by
  induction depth with
  | zero =>
    funext path firsts rule
    simp only [visit]
  | succ depth ih =>
    funext path firsts rule
    simp only [visit, alternativesOf_unlined, union_unlined, List.foldlM_map, ih]
    rfl

theorem firsts_unlined : g.unlined.firsts = g.firsts := by
  unfold firsts
  rw [length_rules_unlined, visit_unlined]

theorem occurrences_unlined : g.unlined.occurrences = g.occurrences := by
  unfold occurrences unlined
  rw [List.zipIdx_map, List.flatMap_map]
  refine List.flatMap_congr fun (r, owner) _ => ?_
  show ((r.alternatives.map fun a => (a.1, a.2.unlined)).flatMap fun a =>
    occurrencesIn owner a.2.sequence) = _
  rw [List.flatMap_map]
  rfl

theorem follows_unlined (firsts : Firsts) : g.unlined.follows firsts = g.follows firsts := by
  unfold follows followOf
  rw [length_rules_unlined, occurrences_unlined]

/-! ## The table -/

theorem row_unlined (firsts : Firsts) (follow : SortedSet Nat) (r : Rule) :
    row firsts follow r.unlined = (row firsts follow r).map Cell.unlined := by
  unfold row Rule.unlined
  rw [List.flatMap_map, List.map_flatMap]
  refine List.flatMap_congr fun a _ => ?_
  rw [List.map_map]
  rfl

theorem rows_unlined (firsts : Firsts) (follows : List (SortedSet Nat)) :
    g.unlined.rows firsts follows = (g.rows firsts follows).map (List.map Cell.unlined) := by
  unfold rows unlined
  rw [List.zip_map_left, List.map_map, List.map_map]
  refine List.map_congr_left fun r _ => ?_
  exact row_unlined firsts r.2 r.1

end RuleSet

theorem Row.fill_unlined (taken row : Row) :
    fill (taken.map Cell.unlined) (row.map Cell.unlined) =
      ((fill taken row).1.map Cell.unlined, (fill taken row).2.map Cell.unlined) := by
  induction row generalizing taken with
  | nil => rfl
  | cons c row ih =>
    have htaken : ((taken.map Cell.unlined).any fun d =>
        d.terminal = c.unlined.terminal ∧ d.id ≠ c.unlined.id) =
          taken.any fun d => d.terminal = c.terminal ∧ d.id ≠ c.id := by
      rw [List.any_map]
      rfl
    rw [List.map_cons, fill, fill, htaken]
    split
    · rfl
    · rw [← List.map_cons, ih]
      rfl

theorem firstClash_unlined (rows : List Row) :
    RuleSet.firstClash (rows.map (List.map Cell.unlined)) =
      (RuleSet.firstClash rows).map fun c => (c.1, c.2.unlined) := by
  have hclash (row : Row) : Row.clash? (row.map Cell.unlined) = row.clash?.map Cell.unlined :=
    congrArg Prod.snd (Row.fill_unlined [] row)
  unfold RuleSet.firstClash
  rw [List.zipIdx_map, List.findSome?_map, List.map_findSome?]
  congr 1
  funext x
  simp [hclash, Function.comp_def]

/-- Rules without lines are compiled to the same grammar, or are refused for the same fault. -/
theorem unlined_ofRuleSet (g : RuleSet) :
    unlinedResult (ofRuleSet g.unlined) = unlinedResult (ofRuleSet g) := by
  unfold ofRuleSet
  rw [RuleSet.firsts_unlined]
  cases g.firsts with
  | error r => simp [unlinedResult, Error.unlined]
  | ok firsts =>
    dsimp only
    rw [RuleSet.follows_unlined, RuleSet.rows_unlined, firstClash_unlined]
    cases RuleSet.firstClash (g.rows firsts ((g.follows firsts).map RuleSet.fillFollow)) with
    | some c => simp [unlinedResult, Error.unlined, Cell.unlined]
    | none =>
      have hcell (c : Cell) : c.unlined.unlined = c.unlined := rfl
      simp [unlinedResult, Grammar.unlined, hcell, Function.comp_def]

/-! ## Blocks -/

/-- The rules before names are known, without lines. -/
def RuleTexts.unlined (texts : RuleTexts) : RuleTexts :=
  texts.map fun text => (text.1, text.2.map Alternative.unlined)

theorem numberRules_unlined (symbol : Item → Symbol) (number : Nat) (texts : RuleTexts) :
    (numberRules symbol number texts.unlined).map Rule.unlined =
      (numberRules symbol number texts).map Rule.unlined := by
  induction texts generalizing number with
  | nil => rfl
  | cons text texts ih =>
    have hrest := ih (number + text.2.length)
    unfold RuleTexts.unlined at hrest ⊢
    simp only [List.map_cons, numberRules, List.length_map, hrest]
    congr 1
    simp [Rule.unlined, List.zipIdx_map, List.head?_map, Function.comp_def, Alternative.unlined,
      Alternative.map]

/-- Rules have the names and symbols that they have without lines. -/
theorem RuleSet.unlined_ofTexts (eof : String) (texts : RuleTexts) :
    (ofTexts eof texts.unlined).unlined = (ofTexts eof texts).unlined := by
  have hnames : texts.unlined.map (·.1) = texts.map (·.1) := by
    unfold RuleTexts.unlined
    rw [List.map_map]
    rfl
  have hterminals : terminalNames eof texts.unlined = terminalNames eof texts := by
    unfold terminalNames
    rw [hnames]
    unfold RuleTexts.unlined
    simp only [List.flatMap_map]
    rfl
  unfold ofTexts unlined
  rw [hnames, hterminals]
  exact congrArg (RuleSet.mk · _) (numberRules_unlined _ 0 texts)

/-- The block without its line. -/
def Block.unlined (b : Block) : Block := { b with line := 0 }

theorem Block.desugar_unlined (b : Block) (first : Nat) : b.unlined.desugar first =
    ⟨(b.desugar first).nextNumber, (b.desugar first).alternatives.map Alternative.unlined⟩ := by
  have hadded : b.body.added b.unlined b.name first =
      (b.body.added b b.name first).map Alternative.unlined :=
    b.body.added_map b b.unlined .unlined rfl (fun _ _ => rfl) b.name first
  rw [desugar_eq, desugar_eq]
  dsimp only
  rw [List.map_append]
  exact congrArg (fun as => Desugaring.mk _ (as ++ _)) hadded

theorem desugarEach_unlined (number : Nat) (blocks : List Block) :
    desugarEach number (blocks.map Block.unlined) = (desugarEach number blocks).unlined := by
  induction blocks generalizing number with
  | nil => rfl
  | cons b blocks ih =>
    rw [List.map_cons, desugarEach, desugarEach, Block.desugar_unlined, ih]
    rfl

theorem desugarBlocks_unlined (blocks : List Block) :
    desugarBlocks (blocks.map Block.unlined) = (desugarBlocks blocks).unlined := by
  have hnames : ((desugarEach 1 blocks).unlined.flatMap fun part => part.1 :: part.2.map (·.name)) =
      (desugarEach 1 blocks).flatMap fun part => part.1 :: part.2.map (·.name) := by
    unfold RuleTexts.unlined
    simp only [List.flatMap_map, List.map_map]
    rfl
  have hall : (desugarEach 1 blocks).unlined.flatMap (·.2) =
      ((desugarEach 1 blocks).flatMap (·.2)).map Alternative.unlined := by
    unfold RuleTexts.unlined
    rw [List.flatMap_map, List.map_flatMap]
  unfold desugarBlocks
  rw [desugarEach_unlined]
  dsimp only
  rw [hnames, hall]
  simp only [RuleTexts.unlined, List.map_map, List.filter_map]
  rfl

/-- Blocks that differ in lines only are compiled to the same grammar up to lines, or are refused for
the same fault. -/
theorem unlinedResult_of_blocks {blocks blocks' : List Block} (eof : String)
    (h : blocks.map Block.unlined = blocks'.map Block.unlined) :
    unlinedResult (ofRuleSet (.ofTexts eof (desugarBlocks blocks))) =
      unlinedResult (ofRuleSet (.ofTexts eof (desugarBlocks blocks'))) := by
  have hunlined (bs : List Block) : (RuleSet.ofTexts eof (desugarBlocks bs)).unlined =
      (RuleSet.ofTexts eof (desugarBlocks (bs.map Block.unlined))).unlined := by
    rw [desugarBlocks_unlined, RuleSet.unlined_ofTexts]
  rw [← unlined_ofRuleSet, hunlined, h, ← hunlined, unlined_ofRuleSet]

/-! ## Tokens -/

/-- The token without its line. -/
def wordOf (t : Token) : String × String := (t.name, t.lexeme)

variable {ts ts' : List Token}

theorem name_eq_of_wordOf {t t' : Token} (h : wordOf t' = wordOf t) : t'.name = t.name :=
  congrArg Prod.fst h

theorem lexeme_eq_of_wordOf {t t' : Token} (h : wordOf t' = wordOf t) : t'.lexeme = t.lexeme :=
  congrArg Prod.snd h

/-- What tokens write does not depend on their lines. -/
theorem Expr.Written.of_words {l : Regex.Level} {x : Expr} (h : x.Written l ts)
    (hwords : ts'.map wordOf = ts.map wordOf) : x.Written l ts' := by
  induction h generalizing ts' with
  | @alt s t bar a b hname hlexeme _ _ ihl ihr =>
    rw [List.map_append, List.map_cons] at hwords
    obtain ⟨s', u, rfl, hs, hu⟩ := List.map_eq_append_iff.1 hwords
    obtain ⟨bar', t', rfl, hbar, ht⟩ := List.map_eq_cons_iff.1 hu
    exact .alt ((name_eq_of_wordOf hbar).trans hname) ((lexeme_eq_of_wordOf hbar).trans hlexeme)
      (ihl hs) (ihr ht)
  | sequence _ ih => exact .sequence (ih hwords)
  | @concat s t a b _ _ ihl ihr =>
    rw [List.map_append] at hwords
    obtain ⟨s', t', rfl, hs, ht⟩ := List.map_eq_append_iff.1 hwords
    exact .concat (ihl hs) (ihr ht)
  | repetition _ ih => exact .repetition (ih hwords)
  | @star s mark a hname hlexeme _ ih =>
    rw [List.map_append] at hwords
    obtain ⟨s', u, rfl, hs, hu⟩ := List.map_eq_append_iff.1 hwords
    obtain ⟨mark', rfl, hmark⟩ := List.map_eq_singleton_iff.1 hu
    exact .star ((name_eq_of_wordOf hmark).trans hname) ((lexeme_eq_of_wordOf hmark).trans hlexeme)
      (ih hs)
  | @optional s mark a hname hlexeme _ ih =>
    rw [List.map_append] at hwords
    obtain ⟨s', u, rfl, hs, hu⟩ := List.map_eq_append_iff.1 hwords
    obtain ⟨mark', rfl, hmark⟩ := List.map_eq_singleton_iff.1 hu
    exact .optional ((name_eq_of_wordOf hmark).trans hname)
      ((lexeme_eq_of_wordOf hmark).trans hlexeme) (ih hs)
  | atom _ ih => exact .atom (ih hwords)
  | @name t hname =>
    obtain ⟨t', rfl, ht⟩ := List.map_eq_singleton_iff.1 hwords
    rw [← lexeme_eq_of_wordOf ht]
    exact .name ((name_eq_of_wordOf ht).trans hname)
  | @empty o c ho hc =>
    obtain ⟨o', u, rfl, ho', hu⟩ := List.map_eq_cons_iff.1 hwords
    obtain ⟨c', rfl, hc'⟩ := List.map_eq_singleton_iff.1 hu
    exact .empty ((name_eq_of_wordOf ho').trans ho) ((name_eq_of_wordOf hc').trans hc)
  | @group s o c a ho hc _ ih =>
    rw [List.map_append] at hwords
    obtain ⟨u, v, rfl, hu, hv⟩ := List.map_eq_append_iff.1 hwords
    obtain ⟨o', s', rfl, ho', hs⟩ := List.map_eq_cons_iff.1 hu
    obtain ⟨c', rfl, hc'⟩ := List.map_eq_singleton_iff.1 hv
    exact .group ((name_eq_of_wordOf ho').trans ho) ((name_eq_of_wordOf hc').trans hc) (ih hs)

theorem BlockEnd.of_words {multiChild : Bool} {rest : List Token} (h : BlockEnd ts multiChild rest)
    (hwords : ts'.map wordOf = ts.map wordOf) :
    ∃ rest', BlockEnd ts' multiChild rest' ∧ rest'.map wordOf = rest.map wordOf := by
  cases h with
  | atEnd =>
    obtain rfl := List.map_eq_nil_iff.1 hwords
    exact ⟨[], .atEnd, rfl⟩
  | line heol =>
    obtain ⟨eol', rest', rfl, heol', hrest⟩ := List.map_eq_cons_iff.1 hwords
    exact ⟨rest', .line ((name_eq_of_wordOf heol').trans heol), hrest⟩
  | markedAtEnd hmark =>
    obtain ⟨mark', rfl, hmark'⟩ := List.map_eq_singleton_iff.1 hwords
    exact ⟨[], .markedAtEnd ((name_eq_of_wordOf hmark').trans hmark), rfl⟩
  | markedLine hmark heol =>
    obtain ⟨mark', u, rfl, hmark', hu⟩ := List.map_eq_cons_iff.1 hwords
    obtain ⟨eol', rest', rfl, heol', hrest⟩ := List.map_eq_cons_iff.1 hu
    exact ⟨rest', .markedLine ((name_eq_of_wordOf hmark').trans hmark)
      ((name_eq_of_wordOf heol').trans heol), hrest⟩

/-- Tokens that differ in lines only write blocks that differ in lines only. -/
theorem WritesBlocks.of_words {bs : List Block} (h : WritesBlocks ts bs)
    (hwords : ts'.map wordOf = ts.map wordOf) :
    ∃ bs', WritesBlocks ts' bs' ∧ bs'.map Block.unlined = bs.map Block.unlined := by
  induction h generalizing ts' with
  | nil =>
    obtain rfl := List.map_eq_nil_iff.1 hwords
    exact ⟨[], .nil, rfl⟩
  | emptyLine heol _ ih =>
    obtain ⟨eol', ts', rfl, heol', hrest⟩ := List.map_eq_cons_iff.1 hwords
    obtain ⟨bs', hbs, hunlined⟩ := ih hrest
    exact ⟨bs', .emptyLine ((name_eq_of_wordOf heol').trans heol) hbs, hunlined⟩
  | @block head sep s ending ts body multiChild bs hhead hsep hbody hending _ ih =>
    obtain ⟨head', u, rfl, hhead', hu⟩ := List.map_eq_cons_iff.1 hwords
    obtain ⟨sep', v, rfl, hsep', hv⟩ := List.map_eq_cons_iff.1 hu
    rw [List.map_append] at hv
    obtain ⟨s', ending', rfl, hs, hending'⟩ := List.map_eq_append_iff.1 hv
    obtain ⟨rest', hend, hrest⟩ := hending.of_words hending'
    obtain ⟨bs', hbs, hunlined⟩ := ih hrest
    refine ⟨_ :: bs', .block ((name_eq_of_wordOf hhead').trans hhead)
      ((name_eq_of_wordOf hsep').trans hsep) (hbody.of_words hs) hend hbs, ?_⟩
    simp [hunlined, Block.unlined, lexeme_eq_of_wordOf hhead']

end Grammar

end Predictive
