import Predictive.Proofs.BlockSyntax
import Predictive.Proofs.Unlined

/-!
# Repeated blocks

Two blocks of one rule, one after the other, stand for one block that has the right-hand sides of both
between bars: the text is compiled to the same grammar up to lines, or is refused for the same fault
(`parse_repeatedBlocks`). The parts of right-hand sides are numbered in order, so sub-rules get the
same names, but alternatives are completed in another order (`Expr.added_alternate`).
-/

namespace Predictive.Grammar

/-! ## One right-hand side for two -/

/-- The right-hand side with the segments of `a` before those of another. -/
def Expr.alternate (a : Expr) : Expr → Expr
  | alt l r => alt (a.alternate l) r
  | x => alt a x

/-- The lists differ only in where the alternatives of `owner` stand among the others. -/
structure Shifted (owner : String) (as bs : List (Alternative Item)) : Prop where
  own : as.filter (·.name = owner) = bs.filter (·.name = owner)
  others : as.filter (·.name ≠ owner) = bs.filter (·.name ≠ owner)

namespace Shifted

variable {owner : String} {as bs cs ds : List (Alternative Item)}

theorem append (h : Shifted owner as bs) (h' : Shifted owner cs ds) :
    Shifted owner (as ++ cs) (bs ++ ds) where
  own := by rw [List.filter_append, List.filter_append, h.own, h'.own]
  others := by rw [List.filter_append, List.filter_append, h.others, h'.others]

theorem refl (owner : String) (as : List (Alternative Item)) : Shifted owner as as := ⟨rfl, rfl⟩

/-- Every rule has the same alternatives. -/
theorem filter_eq (h : Shifted owner as bs) (n : String) :
    as.filter (·.name = n) = bs.filter (·.name = n) := by
  by_cases hn : n = owner
  · exact hn ▸ h.own
  · have hfilter (cs : List (Alternative Item)) :
        (cs.filter (·.name ≠ owner)).filter (·.name = n) = cs.filter (·.name = n) := by
      rw [List.filter_filter]
      refine List.filter_congr fun a _ => ?_
      by_cases ha : a.name = n
      · simp [ha, hn]
      · simp [ha]
    rw [← hfilter as, h.others, hfilter]

end Shifted

namespace Expr

variable {P : String → Prop} {b : Block} {owner home : String} {first : Nat} {a c : Expr}

theorem alternate_of_grouped (hc : c.Grouped P false) : a.alternate c = alt a c := by
  cases c with
  | alt => cases hc.1
  | _ => rfl

theorem numbers_alternate : (a.alternate c).numbers = a.numbers + c.numbers := by
  induction c with
  | alt l r ihl => simp [alternate, numbers, ihl, Nat.add_assoc]
  | _ => rfl

theorem symbols_alternate :
    (a.alternate c).symbols home first = c.symbols home (first + a.numbers) := by
  cases c with
  | alt l r => simp [alternate, symbols, numbers_alternate, Nat.add_assoc]
  | _ => rfl

/-- The alternatives of the owner are completed at other times. -/
theorem added_alternate (hc : c.Grouped P true)
    (howner : ∀ j, first ≤ j → owner ≠ subruleName b.name j) :
    Shifted owner ((a.alternate c).added b owner first)
      (a.added b owner first ++ b.alternative owner (a.symbols b.name first) ::
        c.added b owner (first + a.numbers)) := by
  -- A right-hand side without bars adds nothing for the owner, so that the order does not matter.
  have hplain (y : Expr) (hy : y.Grouped P false) :
      Shifted owner ((alt a y).added b owner first)
        (a.added b owner first ++ b.alternative owner (a.symbols b.name first) ::
          y.added b owner (first + a.numbers)) := by
    have hnone : (y.added b owner (first + a.numbers)).filter (·.name = owner) = [] :=
      filter_added_eq_nil hy nofun fun p hp hname =>
        howner p.number (by have := number_of_mem_parts hp; omega) hname.symm
    constructor
    · simp [added, hnone]
    · simp [added]
  induction c with
  | alt l r ihl =>
    have hleft := (ihl hc.2.1).append (.refl owner (r.added b owner (first + a.numbers + l.numbers) ++
      [b.alternative owner (l.symbols b.name (first + a.numbers))]))
    simpa [alternate, added, numbers_alternate, symbols_alternate, Nat.add_assoc] using hleft
  | name | empty | group | concat | star | optional => exact hplain _ hc

/-- The tokens of two right-hand sides with a bar between them write the right-hand side of both. -/
theorem Written.alternate {s t : List Token} {bar : Token} (ha : a.Written .alternation s)
    (hname : bar.name = "op") (hlexeme : bar.lexeme = "|") (hc : c.Written .alternation t) :
    (a.alternate c).Written .alternation (s ++ bar :: t) := by
  generalize hl : Regex.Level.alternation = l at hc
  induction hc with
  | @alt t u bar' l r hname' hlexeme' _ hr ihl =>
    have h := (ihl rfl).alt hname' hlexeme' hr
    simpa [Expr.alternate] using h
  | @sequence t c h =>
    have hplain : c.Grouped (fun _ => True) false := h.grouped fun _ _ _ => trivial
    rw [alternate_of_grouped hplain]
    exact ha.alt hname hlexeme h
  | _ => cases hl

end Expr

/-! ## One block for two -/

/-- The block with another right-hand side. -/
def Block.withBody (b : Block) (body : Expr) : Block := { b with body }

section Blocks

variable {b : Block} {a c : Expr} {number : Nat}

theorem Block.desugar_withBody (b : Block) (x : Expr) (first : Nat) :
    (b.withBody x).desugar first = ⟨first + x.numbers,
      x.added b b.name first ++ [b.alternative b.name (x.symbols b.name first)]⟩ := by
  have hadded : x.added (b.withBody x) b.name first = x.added b b.name first := by
    rw [x.added_map b (b.withBody x) id rfl (fun _ _ => rfl), List.map_id]
  rw [desugar_eq]
  exact congrArg (fun as => Desugaring.mk _ (as ++ _)) hadded

/-- The block for two takes as many numbers, and gives the alternatives of both. -/
theorem Block.desugar_alternate (hname : ¬ Braced b.name) (hc : c.Grouped (¬ Braced ·) true)
    (first : Nat) :
    let e := (b.withBody a).desugar first
    let e' := (b.withBody c).desugar e.nextNumber
    ((b.withBody (a.alternate c)).desugar first).nextNumber = e'.nextNumber ∧
      Shifted b.name ((b.withBody (a.alternate c)).desugar first).alternatives
        (e.alternatives ++ e'.alternatives) := by
  have howner (j : Nat) (_ : first ≤ j) : b.name ≠ subruleName b.name j := fun h =>
    hname (h ▸ braced_subruleName b.name j)
  have hadded := (Expr.added_alternate (b := b) (a := a) hc howner).append
    (.refl b.name [b.alternative b.name (c.symbols b.name (first + a.numbers))])
  simp only [desugar_withBody, Expr.numbers_alternate, Expr.symbols_alternate]
  refine ⟨(Nat.add_assoc ..).symm, ?_⟩
  simpa using hadded

/-- The numbers of what follows depend on the blocks before only. -/
theorem exists_desugarEach_append (number : Nat) (before : List Block) :
    ∃ next, ∀ blocks, desugarEach number (before ++ blocks) =
      desugarEach number before ++ desugarEach next blocks := by
  induction before generalizing number with
  | nil => exact ⟨number, fun _ => rfl⟩
  | cons b before ih =>
    obtain ⟨next, hnext⟩ := ih (b.desugar number).nextNumber
    exact ⟨next, fun blocks => by rw [List.cons_append, desugarEach, hnext]; rfl⟩

/-- After a name, it does not matter where the name comes again. -/
theorem eraseDups_append_cons {n : String} {before ns ms : List String}
    (h : ns.filter (· ≠ n) = ms.filter (· ≠ n)) :
    (before ++ n :: ns).eraseDups = (before ++ n :: ms).eraseDups := by
  have hcons (ls : List String) : ((n :: ls).removeAll before).eraseDups =
      if n ∈ before then ((ls.filter (· ≠ n)).removeAll before).eraseDups
      else n :: ((ls.filter (· ≠ n)).removeAll before).eraseDups := by
    unfold List.removeAll
    by_cases hn : n ∈ before
    · have hfilter : (ls.filter (· ≠ n)).filter (fun m => !before.elem m) =
          ls.filter fun m => !before.elem m := by
        rw [List.filter_filter]
        refine List.filter_congr fun m _ => ?_
        by_cases hm : m = n
        · simp [hm, hn]
        · simp [hm]
      rw [if_pos hn, hfilter]
      simp [hn]
    · have hfilter : (ls.filter fun m => !before.elem m).filter (fun m => !m == n) =
          (ls.filter (· ≠ n)).filter fun m => !before.elem m := by
        rw [List.filter_filter, List.filter_filter]
        refine List.filter_congr fun m _ => ?_
        by_cases hm : m = n <;> simp [hm]
      rw [if_neg hn, ← hfilter, ← List.eraseDups_cons]
      simp [hn]
  rw [List.eraseDups_append, List.eraseDups_append, hcons, hcons, h]

/-- The alternatives of blocks by name, in order of first appearance. -/
def sortedByName (parts : RuleTexts) : RuleTexts :=
  (parts.flatMap fun part => part.1 :: part.2.map (·.name)).eraseDups.map fun n =>
    (n, (parts.flatMap (·.2)).filter (·.name = n))

theorem desugarBlocks_eq (blocks : List Block) :
    desugarBlocks blocks = sortedByName (desugarEach 1 blocks) := rfl

theorem sortedByName_of_shifted {n : String} {as bs cs : List (Alternative Item)}
    (h : Shifted n cs (as ++ bs)) (before after : RuleTexts) :
    sortedByName (before ++ (n, as) :: (n, bs) :: after) =
      sortedByName (before ++ (n, cs) :: after) := by
  have hnames (ds : List (Alternative Item)) : (ds.map (·.name)).filter (· ≠ n) =
      (ds.filter (·.name ≠ n)).map (·.name) := List.filter_map
  have hothers := congrArg (List.map (·.name)) h.others
  rw [List.filter_append, List.map_append] at hothers
  unfold sortedByName
  simp only [List.flatMap_append, List.flatMap_cons, List.cons_append]
  congr 1
  · funext m
    have hfilter := h.filter_eq m
    rw [List.filter_append] at hfilter
    simp only [List.filter_append, hfilter, List.append_assoc]
  · refine eraseDups_append_cons ?_
    simp only [List.filter_append, List.filter_cons, hnames, hothers, List.append_assoc]
    simp

/-- Two blocks of one rule, one after the other, give the same rules as one block with the
right-hand sides of both. -/
theorem desugarBlocks_alternate (hname : ¬ Braced b.name) (hc : c.Grouped (¬ Braced ·) true)
    (before after : List Block) :
    desugarBlocks (before ++ b.withBody a :: b.withBody c :: after) =
      desugarBlocks (before ++ b.withBody (a.alternate c) :: after) := by
  obtain ⟨next, hnext⟩ := exists_desugarEach_append 1 before
  obtain ⟨hnumber, hshifted⟩ := Block.desugar_alternate (a := a) hname hc next
  rw [desugarBlocks_eq, desugarBlocks_eq, hnext, hnext]
  simp only [desugarEach, hnumber]
  exact sortedByName_of_shifted hshifted _ _

end Blocks

/-! ## Texts in lines -/

/-- After an end of line, no block is open. -/
theorem BlockReader.position_of_feed {r r' : BlockReader} {eol : Token} (heol : eol.name = "eol")
    (h : r.feed eol = .ok r') : r'.position = .between := by
  have hclose {b : OpenBlock} {multiChild : Bool} (h : r.close b multiChild = .ok r') :
      r'.position = .between := by
    obtain ⟨block, -, hblock⟩ := bind_eq_ok_iff.1 h
    cases hblock
    rfl
  unfold feed at h
  rw [heol] at h
  cases hposition : r.position with
  | between =>
    rw [hposition] at h
    cases h
    exact hposition
  | named name line =>
    rw [hposition] at h
    cases h
  | within b =>
    rw [hposition] at h
    obtain ⟨b', -, h⟩ := bind_eq_ok_iff.1 h
    exact hclose h
  | marked b =>
    rw [hposition] at h
    exact hclose h

theorem BlockReader.position_of_foldlM {before : List Token} {r : BlockReader}
    (hlast : ∀ u, before.getLast? = some u → u.name = "eol")
    (h : before.foldlM feed {} = .ok r) : r.position = .between := by
  rcases List.eq_nil_or_concat before with rfl | ⟨init, u, rfl⟩
  · cases h
    rfl
  · rw [List.concat_eq_append, List.foldlM_append] at h
    obtain ⟨r', -, hlastFeed⟩ := bind_eq_ok_iff.1 h
    rw [List.foldlM_cons] at hlastFeed
    obtain ⟨_, hfeed, hnil⟩ := bind_eq_ok_iff.1 hlastFeed
    cases hnil
    exact position_of_feed (hlast u (by simp)) hfeed

/-- Whole lines are read as blocks, whatever follows them, or are refused for an error of their
own. -/
theorem BlockReader.read_append_cases {before : List Token}
    (hlast : ∀ u, before.getLast? = some u → u.name = "eol") :
    (∃ e, ∀ rest eof, read (before ++ rest) (.ok eof) = .error e) ∨
      ∃ bs, ∀ rest more, WritesBlocks rest more →
        ∀ eof, read (before ++ rest) (.ok eof) = .ok (bs ++ more) := by
  have hread (rest : List Token) (eof : Token) : read (before ++ rest) (.ok eof) =
      before.foldlM feed {} >>= fun r => r.readFrom rest eof.line := by
    unfold read
    rw [List.foldlM_append]
    exact bind_assoc ..
  cases hfold : before.foldlM feed {} with
  | error e => exact .inl ⟨e, fun rest eof => by rw [hread, hfold]; rfl⟩
  | ok r =>
    refine .inr ⟨r.blocks.reverse, fun rest more hmore eof => ?_⟩
    rw [hread, hfold]
    have hposition := position_of_foldlM hlast hfold
    obtain ⟨blocks, position⟩ := r
    subst hposition
    exact readFrom_of_writesBlocks hmore

/-! ## Right-hand sides on their own -/

/-- The tokens are a right-hand side in one line, without the marker `[>1]`, and build on their own
after the name of a rule and `->`. -/
def BuildsAlone (head sep : Token) (s : List Token) : Prop :=
  (∀ u ∈ s, u.name ≠ "eol" ∧ u.name ≠ "multi_child") ∧
    ∃ eof blocks, BlockReader.read (head :: sep :: s) (.ok eof) = .ok blocks

theorem BuildsAlone.exists_written {head sep : Token} {s : List Token} (h : BuildsAlone head sep s)
    (hhead : head.name = "id")
    (hops : ∀ t ∈ head :: sep :: s, t.name = "op" → t.lexeme ∈ ["*", "?", "|"]) :
    sep.name = "sep" ∧ ∃ body, Expr.Written .alternation s body := by
  obtain ⟨hline, eof, blocks, hread⟩ := h
  have hblocks := (BlockReader.read_eq_ok_iff hops eof).1 hread
  generalize htokens : head :: sep :: s = tokens at hblocks
  cases hblocks with
  | nil => cases htokens
  | emptyLine heol =>
    cases htokens
    rw [hhead] at heol
    exact absurd heol (by decide)
  | @block head sep s ending ts body multiChild bs _ hsep hbody hending _ =>
    cases htokens
    cases hending with
    | atEnd => exact ⟨hsep, body, by simpa using hbody⟩
    | line heol => exact absurd heol (hline _ (by simp)).1
    | markedAtEnd hmark | markedLine hmark _ => exact absurd hmark (hline _ (by simp)).2

/-! ## Compilation -/

theorem Tokenizes.lexeme_of_op {text : String} {tokens : List Token} (h : Tokenizes text tokens) :
    ∀ t ∈ tokens, t.name = "op" → t.lexeme ∈ ["*", "?", "|"] := by
  obtain ⟨words, hwords, htokens⟩ := h
  obtain ⟨eof, -, rfl⟩ := map_eq_ok_iff.1 htokens
  exact fun t ht => Vocabulary.lexeme_of_op hwords ht

theorem Tokenizes.not_braced {text : String} {tokens : List Token} (h : Tokenizes text tokens) :
    ∀ t ∈ tokens, t.name = "id" → ¬ Braced t.lexeme := by
  obtain ⟨words, hwords, htokens⟩ := h
  obtain ⟨eof, -, rfl⟩ := map_eq_ok_iff.1 htokens
  exact fun t ht => Vocabulary.brace_not_mem_lexeme hwords ht

theorem parse_of_readBlocks {text : String} {blocks : List Block} (h : readBlocks text = .ok blocks)
    (hblocks : blocks ≠ []) (config : Config) :
    parse text config = ofRuleSet (.ofTexts config.eof (desugarBlocks blocks)) := by
  cases blocks with
  | nil => exact absurd rfl hblocks
  | cons b blocks =>
    rw [parse, readRules, h]
    rfl

theorem parse_of_readBlocks_error {text : String} {e : Error} (h : readBlocks text = .error e)
    (config : Config) : parse text config = .error e := by
  rw [parse, readRules, h]
  rfl

/-- The tokens of a text, where the tokens of grammar texts are defined as given and the text is cut
on the nondeterministic automaton. -/
def tokensBy (definitions : List Char) (text : String) : Option (List Token) :=
  match Definitions.defineLines [] 0 (Text.lines definitions) with
  | .error _ => none
  | .ok patterns =>
    let pieces := Scanner.cut (Scanner.pieceBy (Patterns.joined patterns)) {} text.toList.length
      { rest := text.toList }
    if pieces.2.isOk then some pieces.1 else none

theorem tokenizes_of_tokensBy {definitions : List Char} {text : String} {tokens : List Token}
    (hdefinitions : Vocabulary.definitions = String.ofList definitions)
    (h : tokensBy definitions text = some tokens) : Tokenizes text tokens := by
  unfold tokensBy at h
  cases hpatterns : Definitions.defineLines [] 0 (Text.lines definitions) with
  | error e =>
    rw [hpatterns] at h
    cases h
  | ok patterns =>
    rw [hpatterns] at h
    dsimp only at h
    rw [← Tokenizer.cut_ofText patterns text le_rfl] at h
    obtain ⟨hok, htokens⟩ := Option.ite_none_right_eq_some.1 h
    obtain ⟨eof, heof⟩ := exists_eq_ok_of_isOk hok
    have hwords : Vocabulary.patterns = .ok (.ofPatterns patterns) := by
      unfold Vocabulary.patterns PatternSet.parse
      rw [hdefinitions, String.toList_ofList, hpatterns]
      rfl
    exact ⟨_, hwords, map_eq_ok_iff.2 ⟨eof, heof, Option.some.inj htokens⟩⟩

/-- A rule in two blocks, each with a sub-rule. -/
def repeated : String := "S -> A end\nA -> a*\nA -> (b c)*"

/-- The rule of `repeated` in one block. -/
def alternated : String := "S -> A end\nA -> a* | (b c)*"

section Texts

variable {x y : String} {before s t after ys : List Token} {head head' sep sep' eol bar : Token}
  {a c : Expr} {bs more : List Block}

/-- Tokens that start with an end of line, if any, end a block. -/
theorem exists_blockEnd (hfirst : ∀ u, after.head? = some u → u.name = "eol")
    (hafter : WritesBlocks after more) :
    ∃ rest, BlockEnd after false rest ∧ WritesBlocks rest more := by
  cases hafter with
  | nil => exact ⟨[], .atEnd, .nil⟩
  | emptyLine heol hrest => exact ⟨_, .line heol, hrest⟩
  | block hhead =>
    rw [hfirst _ rfl] at hhead
    exact absurd hhead (by decide)

/-- Up to lines, the blocks of two right-hand sides of one rule are compiled as the block of both. -/
theorem unlinedResult_alternate (hname : ¬ Braced head.lexeme) (hlexeme : head'.lexeme = head.lexeme)
    (hc : c.Grouped (¬ Braced ·) true) (eof : String) :
    unlinedResult (ofRuleSet (.ofTexts eof (desugarBlocks (bs ++
      { name := head.lexeme, body := a, multiChild := false, line := head.line } ::
      { name := head'.lexeme, body := c, multiChild := false, line := head'.line } :: more)))) =
    unlinedResult (ofRuleSet (.ofTexts eof (desugarBlocks (bs ++
      { name := head.lexeme, body := a.alternate c, multiChild := false, line := head.line } ::
        more)))) := by
  let b : Block := { name := head.lexeme, body := a, multiChild := false, line := head.line }
  refine .trans (unlinedResult_of_blocks eof ?_)
    (congrArg (fun texts => unlinedResult (ofRuleSet (.ofTexts eof texts)))
      (desugarBlocks_alternate (b := b) hname hc bs more))
  simp [b, Block.withBody, Block.unlined, hlexeme]

/-- Tokens with two blocks of a rule write both, and tokens with one in their place write that of
both right-hand sides. -/
theorem exists_blocks_of_repeated
    (hops : ∀ u ∈ head :: sep :: (s ++ eol :: head' :: sep' :: (t ++ after)),
      u.name = "op" → u.lexeme ∈ ["*", "?", "|"])
    (hys : ys.map wordOf = (head :: sep :: (s ++ bar :: (t ++ after))).map wordOf)
    (hhead : head.name = "id") (hhead' : head'.name = "id") (heol : eol.name = "eol")
    (hop : bar.name = "op") (hbar : bar.lexeme = "|") (hs : BuildsAlone head sep s)
    (ht : BuildsAlone head' sep' t) (hfirst : ∀ u, after.head? = some u → u.name = "eol")
    (hafter : WritesBlocks after more) :
    ∃ a c blocks, c.Written .alternation t ∧
      WritesBlocks (head :: sep :: (s ++ eol :: head' :: sep' :: (t ++ after)))
        ({ name := head.lexeme, body := a, multiChild := false, line := head.line } ::
          { name := head'.lexeme, body := c, multiChild := false, line := head'.line } :: more) ∧
      WritesBlocks ys blocks ∧ blocks.map Block.unlined =
        ({ name := head.lexeme, body := a.alternate c, multiChild := false, line := head.line } ::
          more).map Block.unlined := by
  have hfirstBlock : head :: sep :: s ⊆ head :: sep :: (s ++ eol :: head' :: sep' :: (t ++ after)) :=
    List.IsInfix.subset ⟨[], eol :: head' :: sep' :: (t ++ after), by simp⟩
  have hsecondBlock : head' :: sep' :: t ⊆
      head :: sep :: (s ++ eol :: head' :: sep' :: (t ++ after)) :=
    List.IsInfix.subset ⟨head :: sep :: (s ++ [eol]), after, by simp⟩
  obtain ⟨hsep, a, ha⟩ := hs.exists_written hhead fun u hu => hops u (hfirstBlock hu)
  obtain ⟨hsep', c, hc⟩ := ht.exists_written hhead' fun u hu => hops u (hsecondBlock hu)
  obtain ⟨rest, hending, hrest⟩ := exists_blockEnd hfirst hafter
  have htwo := WritesBlocks.block hhead hsep ha (.line heol) (.block hhead' hsep' hc hending hrest)
  have hone := WritesBlocks.block hhead hsep (ha.alternate hop hbar hc) hending hrest
  rw [List.append_assoc, List.cons_append] at hone
  obtain ⟨blocks, hblocks, hunlined⟩ := hone.of_words hys
  exact ⟨a, c, blocks, hc, htwo, hblocks, hunlined⟩

/-- Take a text with two blocks of a rule, one after the other, whose right-hand sides build on their
own, and a text with one block in their place, which has both right-hand sides with a bar between
them. Up to lines, both texts are compiled to the same grammar or refused for the same fault: left
recursion or ambiguity, if the text before the blocks builds. -/
theorem parse_repeatedBlocks
    (hx : Tokenizes x (before ++ head :: sep :: (s ++ eol :: head' :: sep' :: (t ++ after))))
    (hy : Tokenizes y (before ++ ys))
    (hys : ys.map wordOf = (head :: sep :: (s ++ bar :: (t ++ after))).map wordOf)
    (hlast : ∀ u, before.getLast? = some u → u.name = "eol") (hhead : head.name = "id")
    (hsame : wordOf head' = wordOf head) (heol : eol.name = "eol") (hop : bar.name = "op")
    (hbar : bar.lexeme = "|") (hs : BuildsAlone head sep s) (ht : BuildsAlone head' sep' t)
    (hfirst : ∀ u, after.head? = some u → u.name = "eol") (hafter : ∃ bs, WritesBlocks after bs)
    (config : Config) :
    unlinedResult (parse x config) = unlinedResult (parse y config) ∧
      ((∃ bs, WritesBlocks before bs) →
        PastReading (parse x config) ∧ PastReading (parse y config)) := by
  obtain ⟨eofx, hreadx, -⟩ := hx.exists_readBlocks_eq
  obtain ⟨eofy, hready, -⟩ := hy.exists_readBlocks_eq
  rcases BlockReader.read_append_cases hlast with ⟨e, herror⟩ | ⟨bs, hbefore⟩
  · -- The text before does not build, and both texts are refused for its error.
    rw [herror] at hreadx hready
    rw [parse_of_readBlocks_error hreadx, parse_of_readBlocks_error hready]
    refine ⟨rfl, fun ⟨bs, hbs⟩ => ?_⟩
    have hok := (BlockReader.read_eq_ok_iff
      (fun u hu => hx.lexeme_of_op u (List.mem_append_left _ hu)) eofx).2 hbs
    have herror := herror [] eofx
    rw [List.append_nil, hok] at herror
    cases herror
  · obtain ⟨more, hafter⟩ := hafter
    obtain ⟨a, c, blocks, hc, htwo, hone, hunlined⟩ := exists_blocks_of_repeated
      (fun u hu => hx.lexeme_of_op u (List.mem_append_right _ hu)) hys hhead
      ((name_eq_of_wordOf hsame).trans hhead) heol hop hbar hs ht hfirst hafter
    rw [hbefore _ _ htwo] at hreadx
    rw [hbefore _ _ hone] at hready
    have hne : bs ++ blocks ≠ [] := by
      intro hnil
      rw [(List.append_eq_nil_iff.1 hnil).2] at hunlined
      cases hunlined
    have hname : ¬ Braced head.lexeme := hx.not_braced head (by simp) hhead
    have hgrouped : c.Grouped (¬ Braced ·) true :=
      hc.grouped fun u hu => hx.not_braced u (by simp [hu])
    have hblocks : (bs ++ blocks).map Block.unlined = (bs ++
        { name := head.lexeme, body := a.alternate c, multiChild := false, line := head.line } ::
          more).map Block.unlined := by
      rw [List.map_append, List.map_append, hunlined]
    rw [parse_of_readBlocks hreadx (by simp), parse_of_readBlocks hready hne]
    refine ⟨?_, fun _ => ⟨pastReading_ofRuleSet _, pastReading_ofRuleSet _⟩⟩
    rw [unlinedResult_alternate hname (lexeme_eq_of_wordOf hsame) hgrouped]
    exact (unlinedResult_of_blocks config.eof hblocks).symm

set_option maxRecDepth 4000 in
/-- One block or two, the rule is compiled to the same grammar up to lines. -/
theorem parse_repeatedBlocks_starred :
    unlinedResult (parse repeated {}) = unlinedResult (parse alternated {}) ∧
      PastReading (parse repeated {}) ∧ PastReading (parse alternated {}) := by
  let before : List Token :=
    [⟨"id", "S", 1⟩, ⟨"sep", "->", 1⟩, ⟨"id", "A", 1⟩, ⟨"id", "end", 1⟩, ⟨"eol", "\n", 1⟩]
  let s : List Token := [⟨"id", "a", 2⟩, ⟨"op", "*", 2⟩]
  let t (line : Nat) : List Token :=
    [⟨"lparen", "(", line⟩, ⟨"id", "b", line⟩, ⟨"id", "c", line⟩, ⟨"rparen", ")", line⟩,
      ⟨"op", "*", line⟩]
  obtain ⟨definitions, hdefinitions, hx, hy⟩ : ∃ definitions,
      Vocabulary.definitions = String.ofList definitions ∧
        tokensBy definitions repeated = some
          (before ++ ⟨"id", "A", 2⟩ :: ⟨"sep", "->", 2⟩ :: (s ++ ⟨"eol", "\n", 2⟩ ::
            ⟨"id", "A", 3⟩ :: ⟨"sep", "->", 3⟩ :: (t 3 ++ []))) ∧
        tokensBy definitions alternated = some
          (before ++ ⟨"id", "A", 2⟩ :: ⟨"sep", "->", 2⟩ :: (s ++ ⟨"op", "|", 2⟩ :: t 2)) :=
    ⟨_, rfl, by decide +kernel⟩
  have h := parse_repeatedBlocks (tokenizes_of_tokensBy hdefinitions hx)
    (tokenizes_of_tokensBy hdefinitions hy) rfl (fun u hu => by cases hu; rfl) rfl rfl rfl
    (show Token.name ⟨"op", "|", 2⟩ = "op" from rfl) rfl
    ⟨by decide, ⟨eofName, "", 2⟩, _, rfl⟩ ⟨by decide, ⟨eofName, "", 3⟩, _, rfl⟩ nofun ⟨[], .nil⟩ {}
  exact ⟨h.1, h.2 ⟨_, .block rfl rfl (.sequence (.concat (.repetition (.atom (.name rfl)))
    (.atom (.name rfl)))) (.line rfl) .nil⟩⟩

end Texts

end Predictive.Grammar
