import Predictive.Proofs.BlockSyntax
import Predictive.Proofs.FollowExact
import Predictive.Proofs.Numbering

/-!
# Sub-rules

Every group, repetition and option of a text has one sub-rule, under a name that no other has
(`subrules_of_readRules`). The sub-rule stands in one place outside its own alternatives, and a
repetition once more at the end of its first alternative.
-/

namespace Predictive.Grammar

open Relation (ReflTransGen)

/-! ## Occurrences of names -/

/-- A repetition, whose sub-rule goes on with itself. -/
def Part.repeats (p : Part) : Bool :=
  match p.expr with
  | .star _ => true
  | _ => false

@[simp]
theorem Part.repeats_group {first : Nat} {a : Expr} : (Part.mk first (.group a)).repeats = false := rfl

@[simp]
theorem Part.repeats_star {first : Nat} {a : Expr} : (Part.mk first (.star a)).repeats = true := rfl

@[simp]
theorem Part.repeats_optional {first : Nat} {a : Expr} :
    (Part.mk first (.optional a)).repeats = false := rfl

/-- How often a name stands in the sequences of alternatives. -/
def occurrencesOf (n : String) (as : List (Alternative Item)) : Nat :=
  (as.flatMap (·.sequence)).count (.name n)

section Occurrences

variable {n : String} {as bs : List (Alternative Item)} {b : Block}

@[simp]
theorem occurrencesOf_nil : occurrencesOf n [] = 0 := rfl

@[simp]
theorem occurrencesOf_append :
    occurrencesOf n (as ++ bs) = occurrencesOf n as + occurrencesOf n bs := by
  simp [occurrencesOf]

@[simp]
theorem occurrencesOf_cons (owner : String) (is : List Item) :
    occurrencesOf n (b.alternative owner is :: as) = is.count (.name n) + occurrencesOf n as := by
  simp [occurrencesOf, Block.alternative]

/-- The name of a sub-rule stands in a right-hand side, and in what is added within it, once for each
part with that name, and once more for each repetition. -/
theorem Expr.count_symbols {x : Expr} {top : Bool} (hx : x.Grouped (¬ Braced ·) top) (hn : Braced n)
    (owner : String) (first : Nat) :
    (x.symbols b.name first).count (.name n) + occurrencesOf n (x.added b owner first) =
      ((x.parts first).map (·.name b.name)).count n +
        (((x.parts first).filter (·.repeats)).map (·.name b.name)).count n := by
  induction x generalizing top owner first with
  | name m =>
    have hne : m ≠ n := fun h => hx (h ▸ hn)
    simp [symbols, added, parts, hne]
  | empty => simp [symbols, added, parts]
  | group a ih =>
    have := ih hx (subruleName b.name first) (first + 1)
    simp [symbols, added, parts, List.count_cons]
    omega
  | concat l r ihl ihr =>
    have := ihl hx.1 owner first
    have := ihr hx.2 owner (first + l.numbers)
    simp [symbols, added, parts]
    omega
  | alt l r ihl ihr =>
    have := ihl hx.2.1 owner first
    have := ihr hx.2.2 owner (first + l.numbers)
    simp [symbols, added, parts]
    omega
  | star a ih =>
    have := ih hx owner first
    simp [symbols, added, parts, List.count_cons, List.filter_cons]
    omega
  | optional a ih =>
    have := ih hx owner first
    simp [symbols, added, parts, List.count_cons]
    omega

theorem Block.occurrencesOf_desugar (h : b.Proper) (hn : Braced n) (first : Nat) :
    occurrencesOf n (b.desugar first).alternatives =
      ((b.body.parts first).map (·.name b.name)).count n +
        (((b.body.parts first).filter (·.repeats)).map (·.name b.name)).count n := by
  rw [← Expr.count_symbols h.2 hn b.name first, desugar_eq]
  simp [Nat.add_comm]

end Occurrences

/-! ## All parts -/

/-- The parts of all blocks, each with the name of its block. -/
def allParts (blocks : List Block) : List (String × Part) :=
  (numbered 1 blocks).flatMap fun q => (q.1.body.parts q.2).map fun p => (q.1.name, p)

/-- The name that is generated for a part of the blocks with the given name. -/
def generatedName (m : String × Part) : String := m.2.name m.1

section AllParts

variable {blocks : List Block} {m : String × Part} {n : String}

theorem mem_allParts_iff : m ∈ allParts blocks ↔
    ∃ q ∈ numbered 1 blocks, q.1.name = m.1 ∧ m.2 ∈ q.1.body.parts q.2 := by
  simp only [allParts, List.mem_flatMap, List.mem_map, Prod.ext_iff]
  constructor
  · rintro ⟨q, hq, p, hp, hname, rfl⟩
    exact ⟨q, hq, hname, hp⟩
  · rintro ⟨q, hq, hname, hp⟩
    exact ⟨q, hq, m.2, hp, hname, rfl⟩

/-- Different parts have different names. -/
theorem nodup_generatedNames (h : ∀ b ∈ blocks, b.Proper) :
    ((allParts blocks).map generatedName).Nodup := by
  -- The numbers of the names are different, across all blocks.
  have hnumbers : ((allParts blocks).map (·.2.number)).Nodup := by
    rw [allParts, List.map_flatMap, List.nodup_flatMap]
    refine ⟨fun q _ => ?_, (numbered_pairwise h 1).2.imp fun {q q'} hle => ?_⟩
    · rw [List.map_map]
      exact q.1.body.nodup_numbers_parts q.2
    · rw [Block.desugar_eq] at hle
      simp only [List.map_map]
      intro k hk hk'
      obtain ⟨p, hp, rfl⟩ := List.mem_map.1 hk
      obtain ⟨p', hp', hnumber⟩ := List.mem_map.1 hk'
      have := Expr.number_of_mem_parts hp
      have := Expr.number_of_mem_parts hp'
      simp only [Function.comp_apply] at hnumber hle
      omega
  refine List.pairwise_map.2 ((List.pairwise_map.1 hnumbers).imp fun {m m'} hne heq => ?_)
  exact hne (number_eq_of_subruleName_eq heq)

theorem occurrencesOf_allAlternatives (h : ∀ b ∈ blocks, b.Proper) (hn : Braced n) :
    occurrencesOf n (allAlternatives blocks) = ((allParts blocks).map generatedName).count n +
      (((allParts blocks).filter (·.2.repeats)).map generatedName).count n := by
  have hproper : ∀ q ∈ numbered 1 blocks, q.1.Proper := fun q hq => h q.1 (mem_of_mem_numbered hq)
  rw [allAlternatives_eq, allParts]
  generalize numbered 1 blocks = qs at hproper
  induction qs with
  | nil => rfl
  | cons q qs ih =>
    obtain ⟨hq, hqs⟩ := List.forall_mem_cons.1 hproper
    have hblock := Block.occurrencesOf_desugar hq hn q.2
    have hrest := ih hqs
    simp only [List.flatMap_cons, occurrencesOf_append, List.map_append, List.filter_append,
      List.count_append, List.map_map, List.filter_map] at hrest ⊢
    rw [hblock, hrest]
    exact Nat.add_add_add_comm ..

end AllParts

/-! ## One part -/

section OnePart

variable {P : String → Prop} {home : String} {x : Expr} {p : Part} {first : Nat} {top : Bool}

/-- The sub-rule of a part stands in its own alternatives just if the part is a repetition, and then
at the end of the first. -/
theorem Part.sequences_self (home : String) (hp : p.expr.Grouped (¬ Braced ·) true) :
    if p.repeats then ∃ front, p.sequences home = [front ++ [.name (p.name home)], []] ∧
        .name (p.name home) ∉ front
      else ∀ is ∈ p.sequences home, .name (p.name home) ∉ is := by
  have hnone {y : Expr} {top : Bool} {m : Nat} {is : List Item} (hy : y.Grouped (¬ Braced ·) top)
      (his : is ∈ y.sequences home m) (hnumber : p.number < m ∨ m + y.numbers ≤ p.number) :
      .name (p.name home) ∉ is := by
    intro hmem
    rcases Expr.name_of_mem_sequences hy his hmem with hplain | ⟨p', hp', hname⟩
    · exact hplain (braced_subruleName home p.number)
    · have hrange := Expr.number_of_mem_parts hp'
      have heq := number_eq_of_subruleName_eq hname
      omega
  obtain ⟨first, x⟩ := p
  cases x with
  | group a => exact fun is his => hnone (y := a) hp his (.inl (Nat.lt_succ_self first))
  | star a =>
    refine ⟨_, rfl, hnone (y := a) (m := first) hp ?_ (.inr le_rfl)⟩
    exact Expr.Grouped.sequences_eq (P := (¬ Braced ·)) hp ▸ List.mem_singleton_self _
  | optional a =>
    refine List.forall_mem_cons.2 ⟨hnone (y := a) (m := first) hp ?_ (.inr le_rfl), by simp⟩
    exact Expr.Grouped.sequences_eq (P := (¬ Braced ·)) hp ▸ List.mem_singleton_self _
  | name | empty | concat | alt => exact fun is his => absurd his List.not_mem_nil

theorem Part.count_sequences (hp : p.expr.Grouped (¬ Braced ·) true) :
    (p.sequences home).flatten.count (.name (p.name home)) = if p.repeats then 1 else 0 := by
  have hself := p.sequences_self home hp
  split at hself
  · next hrepeats =>
    obtain ⟨front, hsequences, hfront⟩ := hself
    simp [hsequences, hrepeats, List.count_eq_zero.2 hfront]
  · next hrepeats =>
    rw [if_neg hrepeats, List.count_eq_zero, List.mem_flatten]
    rintro ⟨is, his, hmem⟩
    exact hself is his hmem

/-- What holds of the names in the sequences of a right-hand side, and passes from a part to the names
in its own sequences, holds of all parts. -/
theorem Expr.forall_parts (Reach : String → Prop) (hx : x.Grouped P top)
    (hsequences : ∀ is ∈ x.sequences home first, ∀ n, .name n ∈ is → Reach n)
    (hparts : ∀ p ∈ x.parts first, Reach (p.name home) →
      ∀ is ∈ p.sequences home, ∀ n, .name n ∈ is → Reach n) :
    ∀ p ∈ x.parts first, Reach (p.name home) := by
  induction x generalizing first top with
  | name n | empty => exact fun p hp => absurd hp List.not_mem_nil
  | group a ih =>
    have hself : Reach (subruleName home first) :=
      hsequences _ List.mem_cons_self _ List.mem_cons_self
    have ha : ∀ p ∈ a.parts (first + 1), Reach (p.name home) :=
      ih hx (hparts _ List.mem_cons_self hself) fun p hp => hparts p (List.mem_cons_of_mem _ hp)
    exact List.forall_mem_cons.2 ⟨hself, ha⟩
  | concat l r ihl ihr =>
    have hsymbols := hsequences _ List.mem_cons_self
    have hl : ∀ p ∈ l.parts first, Reach (p.name home) := ihl hx.1 (by
      rw [hx.1.sequences_eq]
      exact List.forall_mem_singleton.2 fun n hn => hsymbols n (List.mem_append_left _ hn))
      fun p hp => hparts p (List.mem_append_left _ hp)
    have hr : ∀ p ∈ r.parts (first + l.numbers), Reach (p.name home) := ihr hx.2 (by
      rw [hx.2.sequences_eq]
      exact List.forall_mem_singleton.2 fun n hn => hsymbols n (List.mem_append_right _ hn))
      fun p hp => hparts p (List.mem_append_right _ hp)
    exact List.forall_mem_append.2 ⟨hl, hr⟩
  | alt l r ihl ihr =>
    have hl : ∀ p ∈ l.parts first, Reach (p.name home) :=
      ihl hx.2.1 (fun is his => hsequences is (List.mem_append_left _ his))
        fun p hp => hparts p (List.mem_append_left _ hp)
    have hr : ∀ p ∈ r.parts (first + l.numbers), Reach (p.name home) := ihr hx.2.2 (by
      rw [hx.2.2.sequences_eq]
      exact fun is his => hsequences is (List.mem_append_right _ his))
      fun p hp => hparts p (List.mem_append_right _ hp)
    exact List.forall_mem_append.2 ⟨hl, hr⟩
  | star a ih =>
    have hself : Reach (subruleName home (first + a.numbers)) :=
      hsequences _ List.mem_cons_self _ List.mem_cons_self
    have hbody := hparts _ (List.mem_append_right _ List.mem_cons_self) hself _ List.mem_cons_self
    have ha : ∀ p ∈ a.parts first, Reach (p.name home) := ih hx (by
      rw [Grouped.sequences_eq hx]
      exact List.forall_mem_singleton.2 fun n hn => hbody n (List.mem_append_left _ hn))
      fun p hp => hparts p (List.mem_append_left _ hp)
    exact List.forall_mem_append.2 ⟨ha, List.forall_mem_singleton.2 hself⟩
  | optional a ih =>
    have hself : Reach (subruleName home (first + a.numbers)) :=
      hsequences _ List.mem_cons_self _ List.mem_cons_self
    have hbody := hparts _ (List.mem_append_right _ List.mem_cons_self) hself _ List.mem_cons_self
    have ha : ∀ p ∈ a.parts first, Reach (p.name home) := ih hx (by
      rw [Grouped.sequences_eq hx]
      exact List.forall_mem_singleton.2 hbody)
      fun p hp => hparts p (List.mem_append_left _ hp)
    exact List.forall_mem_append.2 ⟨ha, List.forall_mem_singleton.2 hself⟩

end OnePart

/-! ## The rules of blocks -/

theorem nodup_eraseDups (names : List String) : names.eraseDups.Nodup := by
  induction hn : names.length using Nat.strongRecOn generalizing names with
  | ind k ih =>
    cases names with
    | nil => exact .nil
    | cons n names =>
      rw [List.eraseDups_cons, List.nodup_cons]
      refine ⟨by simp, ih _ ?_ _ rfl⟩
      rw [← hn, List.length_cons]
      exact Nat.lt_succ_of_le (List.length_filter_le _ _)

/-- Sorted by name, alternatives are the same. -/
theorem perm_flatMap_filter {names : List String} (hnames : names.Nodup)
    (all : List (Alternative Item)) :
    (names.flatMap fun n => all.filter (·.name = n)).Perm (all.filter (·.name ∈ names)) := by
  induction names with
  | nil => simp
  | cons n names ih =>
    obtain ⟨hn, hnames⟩ := List.nodup_cons.1 hnames
    have hsplit := List.filter_append_perm (·.name = n) (all.filter (·.name ∈ n :: names))
    rw [List.filter_filter, List.filter_filter] at hsplit
    have hown : all.filter (fun a => decide (a.name = n) && decide (a.name ∈ n :: names)) =
        all.filter (·.name = n) := List.filter_congr fun a _ => by
      by_cases h : a.name = n <;> simp [h]
    have hothers : all.filter (fun a => !decide (a.name = n) && decide (a.name ∈ n :: names)) =
        all.filter (·.name ∈ names) := List.filter_congr fun a _ => by
      by_cases h : a.name = n
      · simp [h, hn]
      · simp [h]
    rw [hown, hothers] at hsplit
    exact ((ih hnames).append_left _).trans hsplit

section Rules

variable {blocks : List Block} {n eof : String} {r : Nat}

theorem map_rules_numberRules (symbol : Item → Symbol) (number : Nat) (texts : RuleTexts) :
    (numberRules symbol number texts).map (fun rule => (rule.name, rule.alternatives.map (·.2))) =
      texts.map fun text => (text.1, text.2.map (Alternative.map symbol)) := by
  induction texts generalizing number with
  | nil => rfl
  | cons text texts ih =>
    rw [numberRules, List.map_cons, ih, List.map_cons]
    exact congrArg (fun alternatives => (text.1, alternatives) :: _)
      (map_snd_zipIdx text.2 number (Alternative.map symbol))

theorem map_alternatives_numberRules (symbol : Item → Symbol) (number : Nat) (texts : RuleTexts) :
    ((numberRules symbol number texts).flatMap (·.alternatives)).map (·.2) =
      (texts.flatMap (·.2)).map (Alternative.map symbol) := by
  have hrules := congrArg (List.flatMap Prod.snd) (map_rules_numberRules symbol number texts)
  simpa only [List.flatMap_map, List.map_flatMap] using hrules

theorem nodup_names (blocks : List Block) : ((desugarBlocks blocks).map (·.1)).Nodup := by
  unfold desugarBlocks
  rw [List.map_map]
  exact (List.map_id _).symm ▸ nodup_eraseDups _

/-- The alternatives of the rules of blocks are those of the blocks, in another order. -/
theorem perm_alternatives (eof : String) (blocks : List Block) :
    ((RuleSet.ofTexts eof (desugarBlocks blocks)).alternatives.map (·.2)).Perm
      ((allAlternatives blocks).map (Alternative.map (symbolOf eof (desugarBlocks blocks)))) := by
  have hnames : (desugarBlocks blocks).flatMap (·.2) =
      ((desugarBlocks blocks).map (·.1)).flatMap fun n =>
        (allAlternatives blocks).filter (·.name = n) := by
    unfold desugarBlocks
    rw [List.flatMap_map, List.map_map, List.flatMap_map]
    rfl
  have hnodup := nodup_names blocks
  have hall : (allAlternatives blocks).filter (·.name ∈ (desugarBlocks blocks).map (·.1)) =
      allAlternatives blocks :=
    List.filter_eq_self.2 fun a ha => decide_eq_true (mem_names_iff.2 (.inr ⟨a, ha, rfl⟩))
  have hperm := perm_flatMap_filter hnodup (allAlternatives blocks)
  rw [hall, ← hnames] at hperm
  unfold RuleSet.alternatives
  rw [RuleSet.rules_ofTexts, map_alternatives_numberRules]
  exact hperm.map _

/-- A symbol stands for a rule as often as the name of the rule stands among the items. -/
theorem count_map_symbolOf (hr : ((desugarBlocks blocks).map (·.1)).idxOf? n = some r)
    (eof : String) (is : List Item) :
    (is.map (symbolOf eof (desugarBlocks blocks))).count (.rule n r) = is.count (.name n) := by
  unfold List.count
  rw [List.countP_map]
  refine List.countP_congr fun i _ => ?_
  simp only [Function.comp_apply, beq_iff_eq]
  constructor
  · intro hi
    rw [← item_symbolOf eof (desugarBlocks blocks) i, hi]
    rfl
  · rintro rfl
    exact symbolOf_of_idxOf? eof hr

/-- A symbol stands for a rule in all alternatives as often as the name of the rule is an item. -/
theorem count_alternatives (hr : ((desugarBlocks blocks).map (·.1)).idxOf? n = some r) :
    ((RuleSet.ofTexts eof (desugarBlocks blocks)).alternatives.flatMap (·.2.sequence)).count
        (.rule n r) = occurrencesOf n (allAlternatives blocks) := by
  have hperm := (perm_alternatives eof blocks).flatMap_right (·.sequence)
  rw [List.flatMap_map, List.flatMap_map] at hperm
  rw [hperm.count_eq]
  unfold occurrencesOf
  rw [← count_map_symbolOf hr eof, List.map_flatMap]
  rfl

/-- Where `f` tells members apart, only a member itself has its value among those that are filtered. -/
theorem count_map_filter {α β : Type} [DecidableEq β] {l : List α} {f : α → β} {a : α}
    (hl : (l.map f).Nodup) (ha : a ∈ l) (P : α → Bool) :
    ((l.filter P).map f).count (f a) = if P a then 1 else 0 := by
  have hmem : f a ∈ (l.filter P).map f ↔ P a = true := by
    rw [List.mem_map]
    constructor
    · rintro ⟨b, hb, heq⟩
      obtain ⟨hb, hP⟩ := List.mem_filter.1 hb
      exact List.inj_on_of_nodup_map hl hb ha heq ▸ hP
    · exact fun hP => ⟨a, List.mem_filter.2 ⟨ha, hP⟩, rfl⟩
  rw [(hl.sublist (List.filter_sublist.map f)).count]
  exact if_congr hmem rfl rfl

/-- The name of a part stands once in the alternatives of the blocks, and that of a repetition twice. -/
theorem occurrencesOf_generatedName (h : ∀ b ∈ blocks, b.Proper) {m : String × Part}
    (hm : m ∈ allParts blocks) :
    occurrencesOf (generatedName m) (allAlternatives blocks) = 1 + if m.2.repeats then 1 else 0 := by
  have hnodup := nodup_generatedNames h
  have hbraced : Braced (generatedName m) := braced_subruleName m.1 m.2.number
  rw [occurrencesOf_allAlternatives h hbraced,
    List.count_eq_one_of_mem hnodup (List.mem_map_of_mem hm),
    count_map_filter hnodup hm fun m => m.2.repeats]

/-- A rule uses the rules that its alternatives name. -/
theorem uses_of_mem {n' : String} {r' : Nat} {c : Alternative Item}
    (hr : ((desugarBlocks blocks).map (·.1)).idxOf? n = some r) (hc : c ∈ allAlternatives blocks)
    (hname : c.name = n) (hn' : .name n' ∈ c.sequence)
    (hr' : ((desugarBlocks blocks).map (·.1)).idxOf? n' = some r') :
    (RuleSet.ofTexts eof (desugarBlocks blocks)).Uses r r' := by
  obtain ⟨k, hk⟩ := (exists_mem_alternativesOf_iff eof (getElem?_of_idxOf? hr)).2 ⟨c, hc, hname, rfl⟩
  exact ⟨k, _, n', hk, List.mem_map.2 ⟨_, hn', symbolOf_of_idxOf? eof hr'⟩⟩

end Rules

/-! ## The sub-rule of a part -/

/-- In the rules `g`, the sub-rule of a part is rule `r`. -/
structure RuleSet.Subrule (g : RuleSet) (m : String × Part) (r : Nat) : Prop where
  /-- The rule, and no other, has the name that is generated for the part. -/
  name_iff : ∀ r', g.rules[r']?.map (·.name) = some (generatedName m) ↔ r' = r
  marked : g.rules[r]?.map (·.subrule) = some true
  /-- A symbol of that name stands for the rule. -/
  resolves : ∀ a ∈ g.alternatives, ∀ s ∈ a.2.sequence, s.item = .name (generatedName m) →
    s = .rule (generatedName m) r
  /-- In the alternatives of all other rules together, it stands once. -/
  outside : (((g.rules.eraseIdx r).flatMap (·.alternatives)).flatMap (·.2.sequence)).count
    (.rule (generatedName m) r) = 1
  /-- A repetition stands at the end of its own first alternative, and nowhere else in its own. -/
  inside : if m.2.repeats then
      ∃ front, (g.alternativesOf r).map (·.2.sequence) =
        [front ++ [.rule (generatedName m) r], []] ∧ .rule (generatedName m) r ∉ front
    else ∀ a ∈ g.alternativesOf r, .rule (generatedName m) r ∉ a.2.sequence
  /-- From the rule of its block, the alternatives of rules lead to it. -/
  reachable : ∃ s, g.ruleNumber? m.1 = some s ∧ ReflTransGen g.Uses s r

theorem count_alternatives_eq_add (g : RuleSet) {r : Nat} (hr : r < g.rules.length) (s : Symbol) :
    (g.alternatives.flatMap (·.2.sequence)).count s =
      ((g.alternativesOf r).flatMap (·.2.sequence)).count s +
        (((g.rules.eraseIdx r).flatMap (·.alternatives)).flatMap (·.2.sequence)).count s := by
  have hperm := ((List.getElem_cons_eraseIdx_perm hr).flatMap_right (·.alternatives)).flatMap_right
    (·.2.sequence)
  have halternatives : g.alternativesOf r = g.rules[r].alternatives := by
    rw [RuleSet.alternativesOf, List.getElem?_eq_getElem hr]
    rfl
  rw [RuleSet.alternatives, ← hperm.count_eq, List.flatMap_cons, List.flatMap_append,
    List.count_append, halternatives]

section Subrule

variable {blocks : List Block} {q : Block × Nat} {p : Part} {r : Nat} (eof : String)

theorem marked_of_part (h : ∀ b ∈ blocks, b.Proper) (hq : q ∈ numbered 1 blocks)
    (hp : p ∈ q.1.body.parts q.2)
    (hr : ((desugarBlocks blocks).map (·.1)).idxOf? (p.name q.1.name) = some r) :
    (RuleSet.ofTexts eof (desugarBlocks blocks)).rules[r]?.map (·.subrule) = some true := by
  obtain ⟨first, hrule⟩ :=
    getElem?_numberRules (symbolOf eof (desugarBlocks blocks)) 0 (desugarBlocks blocks) r
  obtain ⟨is, iss, his⟩ := List.exists_cons_of_ne_nil
    (Expr.sequences_ne_nil_of_mem_parts q.1.name hp)
  have hne := (h q.1 (mem_of_mem_numbered hq)).name_ne q.1.name p.number
  rw [RuleSet.rules_ofTexts, hrule, getElem?_desugarBlocks (getElem?_of_idxOf? hr),
    filter_allAlternatives_of_part h hq hp]
  simp [his, Block.alternative, Part.name, hne.symm]

/-- Outside its own alternatives, the sub-rule of a part stands once. -/
theorem count_outside (h : ∀ b ∈ blocks, b.Proper) (hq : q ∈ numbered 1 blocks)
    (hp : p ∈ q.1.body.parts q.2)
    (hr : ((desugarBlocks blocks).map (·.1)).idxOf? (p.name q.1.name) = some r) :
    ((((RuleSet.ofTexts eof (desugarBlocks blocks)).rules.eraseIdx r).flatMap
      (·.alternatives)).flatMap (·.2.sequence)).count (.rule (p.name q.1.name) r) = 1 := by
  have hgrouped := Expr.grouped_of_mem_parts (h q.1 (mem_of_mem_numbered hq)).2 hp
  have hlt : r < (RuleSet.ofTexts eof (desugarBlocks blocks)).rules.length := by
    rw [RuleSet.length_rules_ofTexts]
    simpa using (List.idxOf?_eq_some_iff.1 hr).1
  have hown : (((RuleSet.ofTexts eof (desugarBlocks blocks)).alternativesOf r).flatMap
      (·.2.sequence)).count (.rule (p.name q.1.name) r) = if p.repeats then 1 else 0 := by
    rw [List.flatMap_def, sequences_of_part h hq hp hr, ← List.map_flatten, count_map_symbolOf hr,
      p.count_sequences hgrouped]
  have hm : (q.1.name, p) ∈ allParts blocks := mem_allParts_iff.2 ⟨q, hq, rfl, hp⟩
  have htotal := occurrencesOf_generatedName h hm
  simp only [generatedName] at htotal
  have hcount := count_alternatives_eq_add _ hlt (.rule (p.name q.1.name) r)
  rw [count_alternatives hr, htotal, hown] at hcount
  omega

/-- The sub-rule of a part stands in its own alternatives just if the part is a repetition, and then
at the end of the first. -/
theorem inside_of_part (h : ∀ b ∈ blocks, b.Proper) (hq : q ∈ numbered 1 blocks)
    (hp : p ∈ q.1.body.parts q.2)
    (hr : ((desugarBlocks blocks).map (·.1)).idxOf? (p.name q.1.name) = some r) :
    if p.repeats then
      ∃ front, ((RuleSet.ofTexts eof (desugarBlocks blocks)).alternativesOf r).map (·.2.sequence) =
        [front ++ [.rule (p.name q.1.name) r], []] ∧ .rule (p.name q.1.name) r ∉ front
    else ∀ a ∈ (RuleSet.ofTexts eof (desugarBlocks blocks)).alternativesOf r,
      .rule (p.name q.1.name) r ∉ a.2.sequence := by
  have hsequences := sequences_of_part h hq hp hr eof
  have hself := p.sequences_self q.1.name
    (Expr.grouped_of_mem_parts (h q.1 (mem_of_mem_numbered hq)).2 hp)
  have hmem (is : List Item) : .rule (p.name q.1.name) r ∈
      is.map (symbolOf eof (desugarBlocks blocks)) ↔ .name (p.name q.1.name) ∈ is := by
    rw [← List.count_pos_iff, count_map_symbolOf hr, List.count_pos_iff]
  split at hself
  · next hrepeats =>
    obtain ⟨front, hfront, hnot⟩ := hself
    rw [if_pos hrepeats]
    refine ⟨front.map (symbolOf eof (desugarBlocks blocks)), ?_, fun h => hnot ((hmem front).1 h)⟩
    rw [hsequences, hfront]
    simp [symbolOf_of_idxOf? eof hr]
  · next hrepeats =>
    rw [if_neg hrepeats]
    intro a ha hin
    have hsequence : a.2.sequence ∈
        (p.sequences q.1.name).map (List.map (symbolOf eof (desugarBlocks blocks))) :=
      hsequences ▸ List.mem_map_of_mem ha
    obtain ⟨is, his, heq⟩ := List.mem_map.1 hsequence
    exact hself is his ((hmem is).1 (heq ▸ hin))

/-- From the rule of a block, the alternatives of rules lead to the sub-rules of all parts. -/
theorem reaches_parts (h : ∀ b ∈ blocks, b.Proper) (hq : q ∈ numbered 1 blocks)
    {s : Nat} (hs : ((desugarBlocks blocks).map (·.1)).idxOf? q.1.name = some s) :
    ∀ p ∈ q.1.body.parts q.2, ∀ r,
      ((desugarBlocks blocks).map (·.1)).idxOf? (p.name q.1.name) = some r →
        ReflTransGen (RuleSet.ofTexts eof (desugarBlocks blocks)).Uses s r := by
  have hproper := h q.1 (mem_of_mem_numbered hq)
  -- An alternative of a rule that is reached leads on to the rules that it names.
  have hstep {n : String} {t : Nat} (ht : ((desugarBlocks blocks).map (·.1)).idxOf? n = some t)
      (hreach : ReflTransGen (RuleSet.ofTexts eof (desugarBlocks blocks)).Uses s t)
      {is : List Item} (his : q.1.alternative n is ∈ (allAlternatives blocks).filter (·.name = n))
      (n' : String) (hn' : .name n' ∈ is) (r : Nat)
      (hr : ((desugarBlocks blocks).map (·.1)).idxOf? n' = some r) :
      ReflTransGen (RuleSet.ofTexts eof (desugarBlocks blocks)).Uses s r :=
    hreach.tail (uses_of_mem ht (List.mem_filter.1 his).1 rfl hn' hr)
  refine Expr.forall_parts (fun n => ∀ r, ((desugarBlocks blocks).map (·.1)).idxOf? n = some r →
      ReflTransGen (RuleSet.ofTexts eof (desugarBlocks blocks)).Uses s r) hproper.2
    (fun is his n hn r hr => ?_) fun p hp hreach is his n hn r hr => ?_
  · refine hstep hs .refl ?_ n hn r hr
    rw [filter_allAlternatives_of_name h hproper.1]
    refine List.mem_flatMap.2 ⟨q, ?_, List.mem_map_of_mem his⟩
    exact List.mem_filter.2 ⟨hq, decide_eq_true rfl⟩
  · obtain ⟨t, ht⟩ := exists_idxOf?_of_part h hq hp
    refine hstep ht (hreach t ht) ?_ n hn r hr
    rw [filter_allAlternatives_of_part h hq hp]
    exact List.mem_map_of_mem his

/-- Each part has a sub-rule. -/
theorem exists_subrule (h : ∀ b ∈ blocks, b.Proper) {m : String × Part} (hm : m ∈ allParts blocks) :
    ∃ r, (RuleSet.ofTexts eof (desugarBlocks blocks)).Subrule m r := by
  obtain ⟨home, p⟩ := m
  obtain ⟨q, hq, rfl, hp⟩ := mem_allParts_iff.1 hm
  have hblock := mem_of_mem_numbered hq
  obtain ⟨r, hr⟩ := exists_idxOf?_of_part h hq hp
  have hget := getElem?_of_idxOf? hr
  refine ⟨r, fun r' => ?_, marked_of_part eof h hq hp hr, fun a ha s hs hitem => ?_,
    count_outside eof h hq hp hr, inside_of_part eof h hq hp hr, ?_⟩
  · rw [← List.getElem?_map, RuleSet.map_name_rules_ofTexts]
    constructor
    · exact fun hr' => place_unique (nodup_names blocks) hr' hget
    · rintro rfl
      exact hget
  · obtain ⟨c, -, hc⟩ := List.mem_map.1 ((perm_alternatives eof blocks).mem_iff.1
      (List.mem_map_of_mem ha))
    rw [← hc] at hs
    obtain ⟨i, -, rfl⟩ := List.mem_map.1 hs
    rw [item_symbolOf] at hitem
    exact hitem ▸ symbolOf_of_idxOf? eof hr
  · obtain ⟨s, hs⟩ := exists_idxOf?_of_block hblock
    exact ⟨s, (RuleSet.ruleNumber?_ofTexts ..).trans hs, reaches_parts eof h hq hs p hp r hr⟩

end Subrule

/-! ## Texts -/

/-- A rule is marked as its first alternative is. -/
theorem exists_marked_of_rule {blocks : List Block} {eof : String} {r : Nat} {rule : Rule}
    (hr : (RuleSet.ofTexts eof (desugarBlocks blocks)).rules[r]? = some rule)
    (hmarked : rule.subrule = true) :
    ∃ c ∈ allAlternatives blocks, c.name = rule.name ∧ c.subrule = true := by
  obtain ⟨first, hrule⟩ :=
    getElem?_numberRules (symbolOf eof (desugarBlocks blocks)) 0 (desugarBlocks blocks) r
  rw [RuleSet.rules_ofTexts, hrule, Option.map_eq_some_iff] at hr
  obtain ⟨⟨n, as⟩, htext, rfl⟩ := hr
  have hget : ((desugarBlocks blocks).map (·.1))[r]? = some n := by
    rw [List.getElem?_map, htext]
    rfl
  have has : as = (allAlternatives blocks).filter (·.name = n) :=
    congrArg Prod.snd (Option.some.inj (htext.symm.trans (getElem?_desugarBlocks hget)))
  dsimp only at hmarked ⊢
  cases hhead : as.head? with
  | none =>
    rw [hhead] at hmarked
    cases hmarked
  | some c =>
    rw [hhead] at hmarked
    have hmem := List.mem_of_mem_head? hhead
    rw [has, List.mem_filter, decide_eq_true_eq] at hmem
    exact ⟨c, hmem.1, hmem.2, hmarked⟩

/-- The rules that are marked as sub-rules are those with generated names. -/
theorem perm_generatedNames {blocks : List Block} (h : ∀ b ∈ blocks, b.Proper) (eof : String) :
    (((RuleSet.ofTexts eof (desugarBlocks blocks)).rules.filter (·.subrule)).map (·.name)).Perm
      ((allParts blocks).map generatedName) := by
  have hnames := RuleSet.map_name_rules_ofTexts eof (desugarBlocks blocks)
  have hnodup : (((RuleSet.ofTexts eof (desugarBlocks blocks)).rules.filter (·.subrule)).map
      (·.name)).Nodup := by
    refine List.Nodup.sublist (List.filter_sublist.map _) ?_
    rw [hnames]
    exact nodup_names blocks
  refine (List.perm_ext_iff_of_nodup hnodup (nodup_generatedNames h)).2 fun n => ?_
  constructor
  · intro hn
    obtain ⟨rule, hrule, rfl⟩ := List.mem_map.1 hn
    obtain ⟨hrule, hmarked⟩ := List.mem_filter.1 hrule
    obtain ⟨r, hr⟩ := List.mem_iff_getElem?.1 hrule
    -- The mark is that of the first alternative, which does not have the name of its block.
    obtain ⟨c, hc, hname, hmarked⟩ := exists_marked_of_rule hr hmarked
    obtain ⟨q, hq, hc⟩ := mem_allAlternatives_iff.1 hc
    have hown := (q.1.marked_desugar q.2 c hc).2.1 hmarked
    obtain ⟨p, hp, hpart⟩ :=
      (Block.name_of_mem_desugar (h q.1 (mem_of_mem_numbered hq)) hc).resolve_left hown
    exact List.mem_map.2 ⟨(q.1.name, p), mem_allParts_iff.2 ⟨q, hq, rfl, hp⟩, hpart.symm.trans hname⟩
  · intro hn
    obtain ⟨m, hm, rfl⟩ := List.mem_map.1 hn
    obtain ⟨r, hsubrule⟩ := exists_subrule eof h hm
    obtain ⟨rule, hrule, hname⟩ := Option.map_eq_some_iff.1 ((hsubrule.name_iff r).2 rfl)
    have hmarked := hsubrule.marked
    rw [hrule] at hmarked
    rw [← hname]
    refine List.mem_map_of_mem (List.mem_filter.2 ⟨List.mem_of_getElem? hrule, ?_⟩)
    exact Option.some.inj hmarked

/-- The symbols of alternatives have names that are written, or that are generated for parts. -/
theorem item_of_mem_alternatives {blocks : List Block} {P : String → Prop}
    (h : ∀ b ∈ blocks, b.body.Grouped P true) {eof : String} {a : Nat × Alternative Symbol}
    (ha : a ∈ (RuleSet.ofTexts eof (desugarBlocks blocks)).alternatives) {s : Symbol}
    (hs : s ∈ a.2.sequence) : s = .empty ∨ (∃ n, P n ∧ s.item = .name n) ∨
      ∃ m ∈ allParts blocks, s.item = .name (generatedName m) := by
  obtain ⟨c, hc, hmap⟩ := List.mem_map.1 ((perm_alternatives eof blocks).mem_iff.1
    (List.mem_map_of_mem ha))
  rw [← hmap] at hs
  obtain ⟨i, hi, rfl⟩ := List.mem_map.1 hs
  obtain ⟨q, hq, hc⟩ := mem_allAlternatives_iff.1 hc
  rw [item_symbolOf]
  cases i with
  | empty => exact .inl rfl
  | name n =>
    refine .inr ?_
    rcases Block.name_of_mem_sequence_desugar (h q.1 (mem_of_mem_numbered hq)) hc hi with
      hn | ⟨p, hp, hn⟩
    · exact .inl ⟨n, hn, rfl⟩
    · exact .inr ⟨(q.1.name, p), mem_allParts_iff.2 ⟨q, hq, rfl, hp⟩, congrArg Item.name hn⟩

variable {text : String} {config : Config} {rules : RuleSet}

/-- For every text whose rules are read: the groups, repetitions and options of its blocks have
different names, and these are the names of its sub-rules. Each symbol has a name that is written, or
one of a part, which is not written; and each part has a sub-rule. -/
theorem subrules_of_readRules (h : readRules text config = .ok rules) :
    ∃ tokens blocks, Tokenizes text tokens ∧ (∀ bs, WritesBlocks tokens bs ↔ bs = blocks) ∧
      ((allParts blocks).map generatedName).Nodup ∧
      ((rules.rules.filter (·.subrule)).map (·.name)).Perm ((allParts blocks).map generatedName) ∧
      (∀ a ∈ rules.alternatives, ∀ s ∈ a.2.sequence, s = .empty ∨
        (∃ t ∈ tokens, t.name = "id" ∧ s.item = .name t.lexeme) ∨
          ∃ m ∈ allParts blocks, s.item = .name (generatedName m)) ∧
      ∀ m ∈ allParts blocks, (∀ t ∈ tokens, t.name = "id" → t.lexeme ≠ generatedName m) ∧
        ∃ r, rules.Subrule m r := by
  obtain ⟨b, bs, hblocks, rfl⟩ := exists_blocks_of_readRules h
  obtain ⟨words, eof, hwords, hending, hwrites⟩ := exists_tokens_of_readBlocks hblocks
  have htokens := (hwrites _).2 rfl
  have hplain : ∀ t ∈ (Tokenizer.ofText words text).collect.tokens, t.name = "id" →
      ¬ Braced t.lexeme := fun t ht => Vocabulary.brace_not_mem_lexeme hwords ht
  have hproper := proper_of_writesBlocks htokens hplain
  refine ⟨_, b :: bs, ⟨words, hwords, map_eq_ok_iff.2 ⟨eof, hending, rfl⟩⟩, hwrites,
    nodup_generatedNames hproper, perm_generatedNames hproper config.eof, fun a ha s hs => ?_,
    fun m hm => ⟨fun t ht hname heq => ?_, exists_subrule config.eof hproper hm⟩⟩
  · have hwritten : ∀ c ∈ b :: bs, c.body.Grouped (fun n =>
        ∃ t ∈ (Tokenizer.ofText words text).collect.tokens, t.name = "id" ∧ t.lexeme = n) true := by
      intro c hc
      obtain ⟨-, -, u, hu, -, -, hbody⟩ := htokens.exists_of_mem hc
      exact hbody.grouped fun t ht hname => ⟨t, hu ht, hname, rfl⟩
    rcases item_of_mem_alternatives hwritten ha hs with hs | ⟨n, ⟨t, ht, hname, rfl⟩, hn⟩ | hs
    · exact .inl hs
    · exact .inr (.inl ⟨t, ht, hname, hn⟩)
    · exact .inr (.inr hs)
  · exact hplain t ht hname (heq ▸ braced_subruleName m.1 m.2.number)

/-- The grammar of sums has four sub-rules: for the group of the sum and its repetition, and for the
group of a parenthesised sum and its option. -/
theorem subrules_of_readRules_sums : ∃ rules, readRules sums {} = .ok rules ∧
    ((rules.rules.filter (·.subrule)).map (·.name)).Perm
      [subruleName "E" 1, subruleName "E" 2, subruleName "T" 3, subruleName "T" 4] ∧
    ∃ r, rules.Subrule
      ("E", ⟨1, .star (.group (.concat (.name "plus") (.name "T")))⟩) r := by
  obtain ⟨g, hparse, -⟩ := exists_parse_sums
  have hread := (compiled_of_parse hparse).2
  obtain ⟨tokens, blocks, htokens, hwrites, -, hperm, -, hsubrules⟩ := subrules_of_readRules hread
  obtain ⟨-, -, hblocks⟩ := htokens.exists_readBlocks_eq
  obtain rfl := (hwrites sumsBlocks).1 ((hblocks sumsBlocks).1 readBlocks_sums)
  obtain ⟨-, r, hr⟩ := hsubrules ("E", ⟨1, .star (.group (.concat (.name "plus") (.name "T")))⟩)
    (List.mem_cons_of_mem _ List.mem_cons_self)
  exact ⟨g.toRuleSet, hread, hperm, r, hr⟩

end Predictive.Grammar
