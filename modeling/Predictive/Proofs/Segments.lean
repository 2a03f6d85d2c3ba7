import Predictive.Proofs.BlockSyntax
import Predictive.Proofs.Numbering

/-!
# Segments and items

The alternatives of a rule that has blocks are the segments between the bars of its right-hand sides,
in order, and the symbols of an alternative are the items that stand side by side in its segment
(`alternatives_eq_segments`). A group, a repetition or an option is one symbol, that of a sub-rule
whose own alternatives are made from it in the same way (`RuleSet.Stands`).
-/

namespace Predictive.Grammar

/-! ## Segments and items -/

/-- The segments between the bars of a right-hand side, outside groups. -/
def Expr.segments : Expr → List Expr
  | alt a b => a.segments ++ b.segments
  | x => [x]

/-- The items that stand side by side in a segment. -/
def Expr.items : Expr → List Expr
  | concat a b => a.items ++ b.items
  | x => [x]

/-- What has no bars outside groups is one segment. -/
theorem Expr.Grouped.segments_eq {P : String → Prop} {x : Expr} (hx : x.Grouped P false) :
    x.segments = [x] := by
  cases x with
  | alt => cases hx.1
  | _ => rfl

/-- Where tokens write a right-hand side, the tokens between the bars write its segments. -/
theorem Expr.Written.exists_segments {x : Expr} {s : List Token} (h : x.Written .alternation s) :
    ∃ (t : List Token) (ts : List (Token × List Token)), s = t ++ ts.flatMap (fun u => u.1 :: u.2) ∧
      (∀ u ∈ ts, u.1.name = "op" ∧ u.1.lexeme = "|") ∧
        List.Forall₂ (Expr.Written .sequence) (t :: ts.map (·.2)) x.segments := by
  have hsegment {y : Expr} {u : List Token} (hy : y.Written .sequence u) : y.segments = [y] :=
    Grouped.segments_eq (P := fun _ => True) (hy.grouped fun _ _ _ => trivial)
  generalize hl : Regex.Level.alternation = l at h
  induction h with
  | @sequence s a h =>
    refine ⟨s, [], (List.append_nil s).symm, nofun, ?_⟩
    rw [hsegment h]
    exact .cons h .nil
  | @alt s t bar a b hname hlexeme hleft hright ihl =>
    obtain ⟨u, us, rfl, hbars, hsegments⟩ := ihl rfl
    refine ⟨u, us ++ [(bar, t)], by simp, ?_, ?_⟩
    · exact List.forall_mem_append.2 ⟨hbars, List.forall_mem_singleton.2 ⟨hname, hlexeme⟩⟩
    · rw [segments, hsegment hright, List.map_append]
      exact List.rel_append hsegments (.cons hright .nil)
  | _ => cases hl

/-- Where tokens write a segment, tokens side by side write its items. -/
theorem Expr.Written.exists_items {x : Expr} {s : List Token} (h : x.Written .sequence s) :
    ∃ ts : List (List Token), s = ts.flatten ∧
      List.Forall₂ (Expr.Written .repetition) ts x.items := by
  have hitem {y : Expr} {u : List Token} (hy : y.Written .repetition u) : y.items = [y] := by
    cases hy with
    | atom h => cases h <;> rfl
    | star | optional => rfl
  generalize hl : Regex.Level.sequence = l at h
  induction h with
  | @repetition s a h =>
    refine ⟨[s], (List.append_nil s).symm, ?_⟩
    rw [hitem h]
    exact .cons h .nil
  | @concat s t a b hleft hright ihl =>
    obtain ⟨us, rfl, hitems⟩ := ihl rfl
    refine ⟨us ++ [t], by simp, ?_⟩
    rw [items, hitem hright]
    exact List.rel_append hitems (.cons hright .nil)
  | _ => cases hl

/-- The symbol stands for an item, within the blocks called `home`. -/
inductive RuleSet.Stands (g : RuleSet) (home : String) : Expr → Symbol → Prop
  | name {n : String} {s : Symbol} : s.item = .name n → g.Names s → Stands g home (.name n) s
  | empty : Stands g home .empty .empty
  /-- A group is a sub-rule with the segments of the group for alternatives. -/
  | group {x : Expr} {k r : Nat} : g.ruleNumber? (subruleName home k) = some r →
      List.Forall₂ (fun y (ss : List Symbol) => List.Forall₂ (Stands g home) y.items ss) x.segments
        ((g.alternativesOf r).map (·.2.sequence)) →
      Stands g home (.group x) (.rule (subruleName home k) r)
  /-- A repetition is a sub-rule that repeats what is repeated before itself, or is empty. -/
  | star {x : Expr} {ss : List Symbol} {k r : Nat} : g.ruleNumber? (subruleName home k) = some r →
      List.Forall₂ (Stands g home) x.items ss →
      (g.alternativesOf r).map (·.2.sequence) = [ss ++ [.rule (subruleName home k) r], []] →
      Stands g home (.star x) (.rule (subruleName home k) r)
  /-- An option is a sub-rule that is there or is empty. -/
  | optional {x : Expr} {ss : List Symbol} {k r : Nat} :
      g.ruleNumber? (subruleName home k) = some r → List.Forall₂ (Stands g home) x.items ss →
      (g.alternativesOf r).map (·.2.sequence) = [ss, []] →
      Stands g home (.optional x) (.rule (subruleName home k) r)

/-- The symbols stand for the items of a segment. -/
def RuleSet.Spells (g : RuleSet) (home : String) (x : Expr) (ss : List Symbol) : Prop :=
  List.Forall₂ (g.Stands home) x.items ss

/-! ## One right-hand side -/

/-- The rules `g` hold a sub-rule for the part, whose alternatives are those made for it. -/
def RuleSet.Holds (g : RuleSet) (home : String) (symbol : Item → Symbol) (p : Part) : Prop :=
  ∃ r, g.ruleNumber? (p.name home) = some r ∧
    symbol (.name (p.name home)) = .rule (p.name home) r ∧
      (g.alternativesOf r).map (·.2.sequence) = (p.sequences home).map (List.map symbol)

section Holds

variable {P : String → Prop} {g : RuleSet} {home : String} {symbol : Item → Symbol} {x : Expr}
  {p : Part} {first : Nat}

/-- The symbols that a run of items stands for are known to the rules. -/
def RuleSet.Knows (g : RuleSet) (symbol : Item → Symbol) (is : List Item) : Prop :=
  ∀ i ∈ is, g.Names (symbol i)

theorem RuleSet.Resolved.knows (hg : g.Resolved) {r : Nat} {iss : List (List Item)}
    (hr : (g.alternativesOf r).map (·.2.sequence) = iss.map (List.map symbol)) :
    ∀ is ∈ iss, g.Knows symbol is := by
  intro is his i hi
  have hmem : is.map symbol ∈ (g.alternativesOf r).map (·.2.sequence) :=
    hr ▸ List.mem_map_of_mem his
  obtain ⟨⟨k, a⟩, ha, hsequence⟩ := List.mem_map.1 hmem
  refine hg.names ha (symbol i) ?_
  rw [show a.sequence = is.map symbol from hsequence]
  exact List.mem_map_of_mem hi

theorem RuleSet.Holds.group (hg : g.Resolved) {a : Expr}
    (h : g.Holds home symbol ⟨first, .group a⟩)
    (ha : (∀ is ∈ a.sequences home (first + 1), g.Knows symbol is) →
      List.Forall₂ (g.Spells home) a.segments
        ((a.sequences home (first + 1)).map (List.map symbol))) :
    g.Spells home (.group a) (((Expr.group a).symbols home first).map symbol) := by
  obtain ⟨r, hr, hsymbol, hsequences⟩ := h
  have hsegments := ha (hg.knows hsequences)
  rw [← Part.sequences_group, ← hsequences] at hsegments
  rw [show ((Expr.group a).symbols home first).map symbol = [.rule (subruleName home first) r] from
    congrArg ([·]) hsymbol]
  exact .cons (.group hr hsegments) .nil

theorem RuleSet.Holds.star (hg : g.Resolved) {a : Expr}
    (h : g.Holds home symbol ⟨first, .star a⟩)
    (ha : g.Knows symbol (a.symbols home first) →
      g.Spells home a ((a.symbols home first).map symbol)) :
    g.Spells home (.star a) (((Expr.star a).symbols home first).map symbol) := by
  obtain ⟨r, hr, hsymbol, hsequences⟩ := h
  have hknows := hg.knows hsequences _ List.mem_cons_self
  have hspells := ha fun i hi => hknows i (List.mem_append_left _ hi)
  simp only [Part.sequences, Part.name_star, List.map_cons, List.map_append,
    List.map_nil] at hsequences
  simp only [Part.name_star] at hr hsymbol
  rw [hsymbol] at hsequences
  rw [Expr.symbols, List.map_singleton, hsymbol]
  exact .cons (.star hr hspells hsequences) .nil

theorem RuleSet.Holds.optional (hg : g.Resolved) {a : Expr}
    (h : g.Holds home symbol ⟨first, .optional a⟩)
    (ha : g.Knows symbol (a.symbols home first) →
      g.Spells home a ((a.symbols home first).map symbol)) :
    g.Spells home (.optional a) (((Expr.optional a).symbols home first).map symbol) := by
  obtain ⟨r, hr, hsymbol, hsequences⟩ := h
  have hspells := ha (hg.knows hsequences _ List.mem_cons_self)
  simp only [Part.sequences, List.map_cons, List.map_nil] at hsequences
  simp only [Part.name_optional] at hr hsymbol
  rw [Expr.symbols, List.map_singleton, hsymbol]
  exact .cons (.optional hr hspells hsequences) .nil

/-- Where the rules hold a sub-rule for each part, the symbols of a segment stand for its items, and
the sequences of a right-hand side are those of its segments. -/
theorem Expr.spells (hg : g.Resolved) (hempty : symbol .empty = .empty)
    (hname : ∀ n, (symbol (.name n)).item = .name n)
    (hparts : ∀ p ∈ x.parts first, g.Holds home symbol p) :
    (x.Grouped P false → g.Knows symbol (x.symbols home first) →
      g.Spells home x ((x.symbols home first).map symbol)) ∧
    (x.Grouped P true → (∀ is ∈ x.sequences home first, g.Knows symbol is) →
      List.Forall₂ (g.Spells home) x.segments ((x.sequences home first).map (List.map symbol))) := by
  induction x generalizing first with
  | name n =>
    have hspells (hknows : g.Knows symbol [.name n]) : g.Spells home (.name n) [symbol (.name n)] :=
      .cons (.name (hname n) (hknows _ List.mem_cons_self)) .nil
    exact ⟨fun _ => hspells, fun _ h => .cons (hspells (h _ List.mem_cons_self)) .nil⟩
  | empty =>
    have hspells : g.Spells home .empty [symbol .empty] := hempty ▸ .cons .empty .nil
    exact ⟨fun _ _ => hspells, fun _ _ => .cons hspells .nil⟩
  | group a ih =>
    have ha := (ih fun p hp => hparts p (List.mem_cons_of_mem _ hp)).2
    have hpart := hparts _ List.mem_cons_self
    exact ⟨fun hx _ => hpart.group hg (ha hx), fun hx _ => .cons (hpart.group hg (ha hx)) .nil⟩
  | concat l r ihl ihr =>
    have hl := (ihl fun p hp => hparts p (List.mem_append_left _ hp)).1
    have hr := (ihr fun p hp => hparts p (List.mem_append_right _ hp)).1
    have hspells (hx : (concat l r).Grouped P false)
        (hknows : g.Knows symbol ((concat l r).symbols home first)) :
        g.Spells home (.concat l r) (((concat l r).symbols home first).map symbol) := by
      rw [symbols, List.map_append]
      exact List.rel_append (hl hx.1 fun i hi => hknows i (List.mem_append_left _ hi))
        (hr hx.2 fun i hi => hknows i (List.mem_append_right _ hi))
    exact ⟨hspells, fun hx h => .cons (hspells hx (h _ List.mem_cons_self)) .nil⟩
  | alt l r ihl ihr =>
    have hl := (ihl fun p hp => hparts p (List.mem_append_left _ hp)).2
    have hr := (ihr fun p hp => hparts p (List.mem_append_right _ hp)).2
    refine ⟨fun hx => Bool.noConfusion hx.1, fun hx h => ?_⟩
    rw [sequences, ← hx.2.2.sequences_eq] at h ⊢
    rw [List.map_append]
    exact List.rel_append (hl hx.2.1 fun is his => h is (List.mem_append_left _ his))
      (hr (hx.2.2.mono true) fun is his => h is (List.mem_append_right _ his))
  | star a ih =>
    have ha := (ih fun p hp => hparts p (List.mem_append_left _ hp)).1
    have hpart := hparts _ (List.mem_append_right _ List.mem_cons_self)
    exact ⟨fun hx _ => hpart.star hg (ha hx), fun hx _ => .cons (hpart.star hg (ha hx)) .nil⟩
  | optional a ih =>
    have ha := (ih fun p hp => hparts p (List.mem_append_left _ hp)).1
    have hpart := hparts _ (List.mem_append_right _ List.mem_cons_self)
    exact ⟨fun hx _ => hpart.optional hg (ha hx), fun hx _ => .cons (hpart.optional hg (ha hx)) .nil⟩

end Holds

/-! ## Texts -/

variable {text : String} {config : Config} {g : Grammar} {blocks : List Block} {b : Block}

/-- The rules of blocks hold a sub-rule for each part of each block. -/
theorem holds_of_part (h : ∀ b ∈ blocks, b.Proper) {q : Block × Nat} (hq : q ∈ numbered 1 blocks)
    (eof : String) {p : Part} (hp : p ∈ q.1.body.parts q.2) :
    (RuleSet.ofTexts eof (desugarBlocks blocks)).Holds q.1.name
      (symbolOf eof (desugarBlocks blocks)) p := by
  obtain ⟨r, hr⟩ := exists_idxOf?_of_part h hq hp
  exact ⟨r, (RuleSet.ruleNumber?_ofTexts ..).trans hr, symbolOf_of_idxOf? eof hr,
    sequences_of_part h hq hp hr eof⟩

/-- The alternatives of a rule that has blocks are the segments of its blocks. -/
theorem spells_ofTexts (h : ∀ b ∈ blocks, b.Proper) (hb : b ∈ blocks) (eof : String) :
    ∃ r, (RuleSet.ofTexts eof (desugarBlocks blocks)).ruleNumber? b.name = some r ∧
      List.Forall₂ ((RuleSet.ofTexts eof (desugarBlocks blocks)).Spells b.name)
        ((blocks.filter (·.name = b.name)).flatMap (·.body.segments))
        (((RuleSet.ofTexts eof (desugarBlocks blocks)).alternativesOf r).map (·.2.sequence)) := by
  obtain ⟨r, hr⟩ := exists_idxOf?_of_block hb
  refine ⟨r, (RuleSet.ruleNumber?_ofTexts ..).trans hr, ?_⟩
  have hsegments : (blocks.filter (·.name = b.name)).flatMap (·.body.segments) =
      ((numbered 1 blocks).filter (·.1.name = b.name)).flatMap (·.1.body.segments) := by
    conv_lhs => rw [← map_fst_numbered 1 blocks]
    rw [List.filter_map, List.flatMap_map]
    rfl
  have halternatives := map_alternativesOf_desugarBlocks eof (getElem?_of_idxOf? hr)
  rw [filter_allAlternatives_of_name h (h b hb).1] at halternatives
  have hsequences : ((RuleSet.ofTexts eof (desugarBlocks blocks)).alternativesOf r).map
        (·.2.sequence) = (((numbered 1 blocks).filter (·.1.name = b.name)).flatMap fun q =>
      q.1.body.sequences b.name q.2).map (List.map (symbolOf eof (desugarBlocks blocks))) := by
    have hmap := congrArg (List.map (·.sequence)) halternatives
    simp only [List.map_map, List.map_flatMap] at hmap ⊢
    exact hmap
  have hknows := (RuleSet.resolved_ofTexts eof (desugarBlocks blocks)).knows hsequences
  rw [hsegments, hsequences, List.map_flatMap]
  refine List.rel_flatMap (R := fun q q' => q = q' ∧ q ∈ numbered 1 blocks ∧ q.1.name = b.name)
    (List.forall₂_same.2 fun q hq => ⟨rfl, by simpa using hq⟩) ?_
  rintro q _ ⟨rfl, hq, hname⟩
  have hproper := h q.1 (mem_of_mem_numbered hq)
  have hspells := Expr.spells (P := (¬ Braced ·)) (RuleSet.resolved_ofTexts eof _) rfl
    (fun n => item_symbolOf eof _ (.name n)) fun p hp => hname ▸ holds_of_part h hq eof hp
  refine hspells.2 hproper.2 fun is his => hknows is (List.mem_flatMap.2 ⟨q, ?_, his⟩)
  exact List.mem_filter.2 ⟨hq, decide_eq_true hname⟩

/-- For every text that is compiled: the alternatives of a rule that has blocks are the segments of
its blocks, in order, and the symbols of each stand for the items of its segment, in order. -/
theorem alternatives_eq_segments (h : Grammar.parse text config = .ok g) :
    ∃ tokens blocks, Tokenizes text tokens ∧ (∀ bs, WritesBlocks tokens bs ↔ bs = blocks) ∧
      ∀ b ∈ blocks, ∃ r, g.ruleNumber? b.name = some r ∧
        List.Forall₂ (fun x a => g.Spells b.name x a.2.sequence)
          ((blocks.filter (·.name = b.name)).flatMap (·.body.segments)) (g.alternativesOf r) := by
  obtain ⟨-, hrules⟩ := compiled_of_parse h
  obtain ⟨c, cs, hblocks, hofTexts⟩ := exists_blocks_of_readRules hrules
  obtain ⟨words, eof, hwords, hending, hwrites⟩ := exists_tokens_of_readBlocks hblocks
  refine ⟨_, c :: cs, ⟨words, hwords, map_eq_ok_iff.2 ⟨eof, hending, rfl⟩⟩, hwrites, fun b hb => ?_⟩
  have hproper := proper_of_writesBlocks ((hwrites _).2 rfl) fun t ht =>
    Vocabulary.brace_not_mem_lexeme hwords ht
  rw [hofTexts]
  obtain ⟨r, hr, hspells⟩ := spells_ofTexts hproper hb config.eof
  exact ⟨r, hr, List.forall₂_map_right_iff.1 hspells⟩

/-- In the grammar of sums, the rule of terms has two segments: a number, and an option, which is one
symbol. -/
theorem alternatives_eq_segments_sums : ∃ g r, Grammar.parse sums {} = .ok g ∧
    g.ruleNumber? "T" = some r ∧
      List.Forall₂ (fun x a => g.Spells "T" x a.2.sequence)
        [.name "num",
          .optional (.group (.concat (.concat (.name "open") (.name "E")) (.name "close")))]
        (g.alternativesOf r) := by
  obtain ⟨g, hparse, -⟩ := exists_parse_sums
  obtain ⟨tokens, blocks, htokens, hwrites, hall⟩ := alternatives_eq_segments hparse
  obtain ⟨-, -, hread⟩ := htokens.exists_readBlocks_eq
  obtain rfl := (hwrites sumsBlocks).1 ((hread sumsBlocks).1 readBlocks_sums)
  obtain ⟨r, hr, hspells⟩ := hall sumsBlocks[1] (by decide)
  exact ⟨g, r, hparse, hr, hspells⟩

end Predictive.Grammar
