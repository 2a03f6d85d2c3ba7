import Predictive.Proofs.Expansion
import Predictive.Proofs.Parsing

/-!
# Blocks as extended BNF

`Matches` reads blocks directly as extended BNF: a rule stands for what one of its blocks stands for,
and every other name for itself. The rules that blocks are desugared to derive the same strings
(`yields_iff_matches`), and so does the context-free grammar of a text, whose blocks are the only ones
that it writes (`cfg_derives_iff_matches`).
-/

namespace Predictive.Grammar

open Computability

/-! ## The language of blocks -/

/-- What a right-hand side stands for, given the blocks. -/
inductive Matches (blocks : List Block) : Expr → List String → Prop
  /-- A name without a block is that of a terminal. -/
  | terminal {n : String} : (∀ b ∈ blocks, b.name ≠ n) → Matches blocks (.name n) [n]
  /-- A rule stands for the right-hand side of any of its blocks. -/
  | rule {b : Block} {w : List String} : b ∈ blocks → Matches blocks b.body w →
      Matches blocks (.name b.name) w
  | empty : Matches blocks .empty []
  | group {a : Expr} {w : List String} : Matches blocks a w → Matches blocks (.group a) w
  | concat {a b : Expr} {u v : List String} : Matches blocks a u → Matches blocks b v →
      Matches blocks (.concat a b) (u ++ v)
  | left {a b : Expr} {w : List String} : Matches blocks a w → Matches blocks (.alt a b) w
  | right {a b : Expr} {w : List String} : Matches blocks b w → Matches blocks (.alt a b) w
  | done {a : Expr} : Matches blocks (.star a) []
  | again {a : Expr} {u v : List String} : Matches blocks a u → Matches blocks (.star a) v →
      Matches blocks (.star a) (u ++ v)
  | absent {a : Expr} : Matches blocks (.optional a) []
  | present {a : Expr} {w : List String} : Matches blocks a w → Matches blocks (.optional a) w

namespace Matches

variable {blocks : List Block} {x : Expr} {w : List String}

/-- `Matches` is contained in all languages of names that the terminals and the blocks allow. -/
theorem mem_language {L : String → Language String}
    (hterminal : ∀ n, (∀ b ∈ blocks, b.name ≠ n) → [n] ∈ L n)
    (hrule : ∀ b ∈ blocks, ∀ w ∈ b.body.language L, w ∈ L b.name) (h : Matches blocks x w) :
    w ∈ x.language L := by
  induction h with
  | terminal hn => exact hterminal _ hn
  | rule hb _ ih => exact hrule _ hb _ ih
  | empty => exact Language.nil_mem_one
  | group _ ih => exact ih
  | concat _ _ iha ihb => exact Language.append_mem_mul iha ihb
  | left _ ih => exact .inl ih
  | right _ ih => exact .inr ih
  | done => exact Language.nil_mem_kstar _
  | again _ _ iha ih => exact append_mem_kstar iha ih
  | absent => exact .inl rfl
  | present _ ih => exact .inr ih

/-- What a right-hand side builds from what its names match, it matches. -/
theorem of_mem_language (h : w ∈ x.language fun n => {u | Matches blocks (.name n) u}) :
    Matches blocks x w := by
  induction x generalizing w with
  | name n => exact h
  | empty =>
    cases h
    exact .empty
  | group a ih => exact .group (ih h)
  | concat a b iha ihb =>
    obtain ⟨u, hu, v, hv, rfl⟩ := h
    exact .concat (iha hu) (ihb hv)
  | alt a b iha ihb =>
    rcases h with h | h
    · exact .left (iha h)
    · exact .right (ihb h)
  | star a ih =>
    obtain ⟨ws, rfl, hws⟩ := h
    induction ws with
    | nil => exact .done
    | cons u ws ihws =>
      obtain ⟨hu, hws⟩ := List.forall_mem_cons.1 hws
      exact .again (ih hu) (ihws hws)
  | optional a ih =>
    rcases h with h | h
    · cases h
      exact .absent
    · exact .present (ih h)

end Matches

/-! ## Numbers of sub-rules -/

/-- The blocks with the numbers from which their sub-rules are numbered. -/
def numbered (first : Nat) : List Block → List (Block × Nat)
  | [] => []
  | b :: blocks => (b, first) :: numbered (b.desugar first).nextNumber blocks

/-- The alternatives of all blocks. -/
def allAlternatives (blocks : List Block) : List (Alternative Item) :=
  (desugarEach 1 blocks).flatMap (·.2)

theorem desugarEach_eq (first : Nat) (blocks : List Block) : desugarEach first blocks =
    (numbered first blocks).map fun p => (p.1.name, (p.1.desugar p.2).alternatives) := by
  induction blocks generalizing first with
  | nil => rfl
  | cons b blocks ih =>
    rw [desugarEach, numbered, List.map_cons, ih]

theorem mem_allAlternatives_iff {blocks : List Block} {a : Alternative Item} :
    a ∈ allAlternatives blocks ↔ ∃ p ∈ numbered 1 blocks, a ∈ (p.1.desugar p.2).alternatives := by
  rw [allAlternatives, desugarEach_eq, List.flatMap_map, List.mem_flatMap]

theorem mem_of_mem_numbered {blocks : List Block} {first : Nat} {p : Block × Nat}
    (h : p ∈ numbered first blocks) : p.1 ∈ blocks := by
  induction blocks generalizing first with
  | nil => cases h
  | cons b blocks ih =>
    rcases List.mem_cons.1 h with rfl | h
    · exact List.mem_cons_self
    · exact List.mem_cons_of_mem b (ih h)

theorem exists_mem_numbered {blocks : List Block} {b : Block} (h : b ∈ blocks) (first : Nat) :
    ∃ k, (b, k) ∈ numbered first blocks := by
  induction blocks generalizing first with
  | nil => cases h
  | cons c blocks ih =>
    rcases List.mem_cons.1 h with rfl | h
    · exact ⟨first, List.mem_cons_self⟩
    · obtain ⟨k, hk⟩ := ih h (c.desugar first).nextNumber
      exact ⟨k, List.mem_cons_of_mem _ hk⟩

/-- The block is named, and its right-hand side is built, as in a text. -/
def Block.Proper (b : Block) : Prop := ¬ Braced b.name ∧ b.body.Grouped (¬ Braced ·) true

variable {blocks : List Block} {name n : String} {w : List String}

/-- The numbers of a block come before those of the blocks that follow. -/
theorem numbered_pairwise (h : ∀ b ∈ blocks, b.Proper) (first : Nat) :
    (∀ p ∈ numbered first blocks, first ≤ p.2) ∧
      (numbered first blocks).Pairwise fun p q => (p.1.desugar p.2).nextNumber ≤ q.2 := by
  induction blocks generalizing first with
  | nil => exact ⟨fun _ hp => absurd hp List.not_mem_nil, .nil⟩
  | cons b blocks ih =>
    obtain ⟨hb, hblocks⟩ := List.forall_mem_cons.1 h
    obtain ⟨hle, hpairwise⟩ := ih hblocks (b.desugar first).nextNumber
    have hfirst : first ≤ (b.desugar first).nextNumber := (b.expanded hb.1 hb.2 first).le
    refine ⟨fun p hp => ?_, .cons hle hpairwise⟩
    rcases List.mem_cons.1 hp with rfl | hp
    · exact le_rfl
    · exact hfirst.trans (hle p hp)

/-- Different blocks do not share numbers. -/
theorem numbered_apart (h : ∀ b ∈ blocks, b.Proper) {first : Nat} {p q : Block × Nat}
    (hp : p ∈ numbered first blocks) (hq : q ∈ numbered first blocks) :
    p = q ∨ (p.1.desugar p.2).nextNumber ≤ q.2 ∨ (q.1.desugar q.2).nextNumber ≤ p.2 := by
  let apart (p q : Block × Nat) : Prop :=
    p = q ∨ (p.1.desugar p.2).nextNumber ≤ q.2 ∨ (q.1.desugar q.2).nextNumber ≤ p.2
  have hsymm : Std.Symm apart := ⟨fun p q hpq => by
    rcases hpq with rfl | hpq | hpq
    · exact .inl rfl
    · exact .inr (.inr hpq)
    · exact .inr (.inl hpq)⟩
  have hpairwise : (numbered first blocks).Pairwise apart :=
    (numbered_pairwise h first).2.imp fun hle => .inr (.inl hle)
  exact hpairwise.forall_of_forall (fun _ _ => .inl rfl) hp hq

/-- All alternatives of the sub-rules of a block come from that block. -/
theorem provides_allAlternatives (h : ∀ b ∈ blocks, b.Proper) {p : Block × Nat}
    (hp : p ∈ numbered 1 blocks) : Provides (allAlternatives blocks) p.1 p.2
      (p.1.desugar p.2).nextNumber (p.1.desugar p.2).alternatives := by
  intro j hj hjn a hname
  rw [mem_allAlternatives_iff]
  refine ⟨?_, fun ha => ⟨p, hp, ha⟩⟩
  rintro ⟨q, hq, ha⟩
  have hproper := h q.1 (mem_of_mem_numbered hq)
  rcases (q.1.expanded hproper.1 hproper.2 q.2).names a ha with hown | ⟨k, hk, hkn, hname'⟩
  · have hbraced := braced_subruleName p.1.name j
    rw [← hname, hown] at hbraced
    exact absurd hbraced hproper.1
  · obtain rfl := number_eq_of_subruleName_eq (hname.symm.trans hname')
    rcases numbered_apart h hp hq with rfl | hlt | hlt
    · exact ha
    · omega
    · omega

/-- The sub-rules that alternatives name have alternatives. -/
theorem known_allAlternatives (h : ∀ b ∈ blocks, b.Proper) {a : Alternative Item}
    (ha : a ∈ allAlternatives blocks) : Known (allAlternatives blocks) a.sequence := by
  obtain ⟨p, hp, ha⟩ := mem_allAlternatives_iff.1 ha
  have hproper := h p.1 (mem_of_mem_numbered hp)
  exact ((p.1.expanded hproper.1 hproper.2 p.2).known a ha).mono fun c hc =>
    mem_allAlternatives_iff.2 ⟨p, hp, hc⟩

/-- An alternative of no sub-rule is one of a block itself. -/
theorem exists_block_of_not_braced (h : ∀ b ∈ blocks, b.Proper) {a : Alternative Item}
    (ha : a ∈ allAlternatives blocks) (hbraced : ¬ Braced a.name) :
    ∃ p ∈ numbered 1 blocks, a ∈ (p.1.desugar p.2).alternatives ∧ a.name = p.1.name := by
  obtain ⟨p, hp, ha⟩ := mem_allAlternatives_iff.1 ha
  have hproper := h p.1 (mem_of_mem_numbered hp)
  refine ⟨p, hp, ha, ((p.1.expanded hproper.1 hproper.2 p.2).names a ha).resolve_right ?_⟩
  rintro ⟨j, -, -, hname⟩
  exact hbraced (hname ▸ braced_subruleName _ j)

/-- A name is that of a rule if a block has it, or an alternative. -/
theorem mem_names_iff : n ∈ (desugarBlocks blocks).map (·.1) ↔
    (∃ b ∈ blocks, b.name = n) ∨ ∃ a ∈ allAlternatives blocks, a.name = n := by
  have hnames : (desugarBlocks blocks).map (·.1) =
      ((desugarEach 1 blocks).flatMap fun part => part.1 :: part.2.map (·.name)).eraseDups := by
    rw [desugarBlocks, List.map_map]
    exact List.map_id _
  rw [hnames, List.mem_eraseDups, List.mem_flatMap, desugarEach_eq]
  simp only [List.mem_map, List.mem_cons, mem_allAlternatives_iff]
  constructor
  · rintro ⟨_, ⟨p, hp, rfl⟩, rfl | ⟨a, ha, rfl⟩⟩
    · exact .inl ⟨p.1, mem_of_mem_numbered hp, rfl⟩
    · exact .inr ⟨a, ⟨p, hp, ha⟩, rfl⟩
  · rintro (⟨b, hb, rfl⟩ | ⟨a, ⟨p, hp, ha⟩, rfl⟩)
    · obtain ⟨k, hk⟩ := exists_mem_numbered hb 1
      exact ⟨_, ⟨(b, k), hk, rfl⟩, .inl rfl⟩
    · exact ⟨_, ⟨p, hp, rfl⟩, .inr ⟨a, ha, rfl⟩⟩

/-- The rule with the name number `r` is that of all alternatives with its name. -/
theorem getElem?_desugarBlocks {r : Nat} (hr : ((desugarBlocks blocks).map (·.1))[r]? = some n) :
    (desugarBlocks blocks)[r]? = some (n, (allAlternatives blocks).filter (·.name = n)) := by
  rw [List.getElem?_map, Option.map_eq_some_iff] at hr
  obtain ⟨text, htext, rfl⟩ := hr
  have hmem := List.mem_of_getElem? htext
  rw [htext]
  unfold desugarBlocks at hmem
  obtain ⟨name, -, rfl⟩ := List.mem_map.1 hmem
  rfl

/-! ## Rules and blocks -/

/-- The words that a run of symbols derives, by the alternatives of all blocks. -/
def Generates (blocks : List Block) : List Item → List String → Prop :=
  Yields (· ∈ (desugarBlocks blocks).map (·.1)) (allAlternatives blocks) fun n => {[n]}

/-- What is derived from symbols is yielded by them, where only sub-rules are expanded and names
stand for what they match. -/
theorem Generates.yields (h : ∀ b ∈ blocks, b.Proper) {is : List Item}
    (hw : Generates blocks is w) (his : Known (allAlternatives blocks) is) :
    Yields Braced (allAlternatives blocks) (fun n => {u | Matches blocks (.name n) u}) is w := by
  unfold Generates at hw
  induction hw with
  | nil => exact .nil
  | empty _ ih => exact .empty (ih (his.subset (List.subset_cons_self _ _)))
  | @name n is u v hn hu _ ih =>
    rw [mem_names_iff, not_or] at hn
    have hbraced : ¬ Braced n := fun hbraced => hn.2 (his n List.mem_cons_self hbraced)
    obtain rfl : u = [n] := hu
    refine .name hbraced ?_ (ih (his.subset (List.subset_cons_self _ _)))
    exact .terminal fun b hb hname => hn.1 ⟨b, hb, hname⟩
  | @expand a is u v ha hR _ _ ihu ih =>
    have hu := ihu (known_allAlternatives h ha)
    have hv := ih (his.subset (List.subset_cons_self _ _))
    by_cases hbraced : Braced a.name
    · exact .expand ha hbraced hu hv
    · obtain ⟨p, hp, ha, hname⟩ := exists_block_of_not_braced h ha hbraced
      have hblock := mem_of_mem_numbered hp
      have hexpanded := p.1.expanded (h p.1 hblock).1 (h p.1 hblock).2 p.2
      have hbody := (hexpanded.mem_language_iff _ _ (provides_allAlternatives h hp) u).2
        ⟨a, ha, hname, hu⟩
      refine .name hbraced ?_ hv
      rw [hname]
      exact .rule hblock (.of_mem_language hbody)

theorem Generates.of_yields {is : List Item} (hw : Yields Braced (allAlternatives blocks)
      (fun n => {u | ¬ Braced n → Generates blocks [.name n] u}) is w) : Generates blocks is w := by
  induction hw with
  | nil => exact .nil
  | empty _ ih => exact .empty ih
  | name hn hu _ ih => exact (hu hn).append ih
  | expand ha _ _ _ ihu ih => exact .expand ha (mem_names_iff.2 (.inr ⟨_, ha, rfl⟩)) ihu ih

/-- A rule derives what its blocks match. -/
theorem generates_iff_matches (h : ∀ b ∈ blocks, b.Proper) (hname : ∃ b ∈ blocks, b.name = name) :
    Generates blocks [.name name] w ↔ Matches blocks (.name name) w := by
  obtain ⟨b, hb, rfl⟩ := hname
  have hplain := (h b hb).1
  constructor
  · intro hw
    have hknown : Known (allAlternatives blocks) [.name b.name] := by
      intro n hn hbraced
      obtain rfl : n = b.name := by simpa using hn
      exact absurd hbraced hplain
    exact (Yields.name_iff hplain).1 (hw.yields h hknown)
  · intro hw
    refine hw.mem_language (L := fun n => {u | ¬ Braced n → Generates blocks [.name n] u})
      (fun n hn hbraced => (Yields.name_iff ?_).2 rfl) (fun c hc u hu _ => ?_) hplain
    · rw [mem_names_iff]
      rintro (⟨c, hc, rfl⟩ | ⟨a, ha, rfl⟩)
      · exact hn c hc rfl
      · obtain ⟨p, hp, -, hname⟩ := exists_block_of_not_braced h ha hbraced
        exact hn p.1 (mem_of_mem_numbered hp) hname.symm
    · obtain ⟨k, hk⟩ := exists_mem_numbered hc 1
      have hexpanded := c.expanded (h c hc).1 (h c hc).2 k
      obtain ⟨a, ha, hname, hu⟩ :=
        (hexpanded.mem_language_iff _ _ (provides_allAlternatives h hk) u).1 hu
      have ha := mem_allAlternatives_iff.2 ⟨_, hk, ha⟩
      exact (Yields.expand_iff (mem_names_iff.2 (.inl ⟨c, hc, rfl⟩))).2
        ⟨a, ha, hname, Generates.of_yields hu⟩

/-! ## The rules of blocks as a grammar -/

section Resolved

variable {eof : String} {tokens : List Token} {is : List Item} {a : Alternative Symbol} {r : Nat}

/-- The alternatives of a rule are those of its name. -/
theorem exists_mem_alternativesOf_iff (eof : String)
    (hr : ((desugarBlocks blocks).map (·.1))[r]? = some n) :
    (∃ k, (k, a) ∈ (RuleSet.ofTexts eof (desugarBlocks blocks)).alternativesOf r) ↔
      ∃ c ∈ allAlternatives blocks, c.name = n ∧ a = c.map (symbolOf eof (desugarBlocks blocks)) := by
  obtain ⟨first, halternatives⟩ := RuleSet.alternativesOf_ofTexts eof (desugarBlocks blocks) r
  rw [halternatives, getElem?_desugarBlocks hr]
  simp only [Option.map_some, Option.getD_some, List.mem_map, Prod.mk.injEq, Prod.exists]
  constructor
  · rintro ⟨k, c, j, hc, -, rfl⟩
    have hmem := List.fst_mem_of_mem_zipIdx hc
    rw [List.mem_filter, decide_eq_true_eq] at hmem
    exact ⟨c, hmem.1, hmem.2, rfl⟩
  · rintro ⟨c, hc, hname, rfl⟩
    have hmem : c ∈ (allAlternatives blocks).filter (·.name = n) :=
      List.mem_filter.2 ⟨hc, decide_eq_true hname⟩
    obtain ⟨j, hj⟩ := List.mem_iff_getElem?.1 hmem
    refine ⟨first + j, c, first + j, ?_, rfl, rfl⟩
    rw [List.mem_zipIdx_iff_le_and_getElem?_sub]
    simpa using hj

/-- Which item a symbol stands for. -/
theorem symbolOf_cases (eof : String) (texts : RuleTexts) (i : Item) :
    (i = .empty ∧ symbolOf eof texts i = .empty) ∨
      (∃ n id, i = .name n ∧ n ∉ texts.map (·.1) ∧ symbolOf eof texts i = .terminal n id) ∨
        ∃ n id, i = .name n ∧ (texts.map (·.1))[id]? = some n ∧
          symbolOf eof texts i = .rule n id := by
  cases i with
  | empty => exact .inl ⟨rfl, rfl⟩
  | name n =>
    unfold symbolOf resolve
    dsimp only
    split
    · next id hid =>
      obtain ⟨hlt, hget, -⟩ := List.idxOf?_eq_some_iff.1 hid
      refine .inr (.inr ⟨n, id, rfl, ?_, rfl⟩)
      rw [List.getElem?_eq_getElem hlt, hget]
    · next hnone => exact .inr (.inl ⟨n, _, rfl, List.idxOf?_eq_none_iff.1 hnone, rfl⟩)

/-- What is derived in the rules of blocks is derived by their alternatives. -/
theorem Derives.generates
    (h : Derives (.ofTexts eof (desugarBlocks blocks))
      (is.map (symbolOf eof (desugarBlocks blocks))) tokens) :
    Generates blocks is (tokens.map (·.name)) := by
  obtain ⟨d, rfl⟩ := h
  generalize hss : is.map (symbolOf eof (desugarBlocks blocks)) = ss at d
  induction d generalizing is with
  | nil =>
    obtain rfl := List.map_eq_nil_iff.1 hss
    exact .nil
  | empty rest ih =>
    obtain ⟨i, is, rfl, hi, rfl⟩ := List.map_eq_cons_iff.1 hss
    rcases symbolOf_cases eof (desugarBlocks blocks) i with
      ⟨rfl, -⟩ | ⟨n, id, -, -, hsymbol⟩ | ⟨n, id, -, -, hsymbol⟩
    · exact .empty (ih rfl)
    · cases hi.symm.trans hsymbol
    · cases hi.symm.trans hsymbol
  | terminal t h rest ih =>
    obtain ⟨i, is, rfl, hi, rfl⟩ := List.map_eq_cons_iff.1 hss
    rcases symbolOf_cases eof (desugarBlocks blocks) i with
      ⟨-, hsymbol⟩ | ⟨n, id, rfl, hn, hsymbol⟩ | ⟨n, id, -, -, hsymbol⟩
    · cases hi.symm.trans hsymbol
    · cases hi.symm.trans hsymbol
      subst h
      exact .name (u := [t.name]) hn rfl (ih rfl)
    · cases hi.symm.trans hsymbol
  | rule k a h inner rest ihi ih =>
    obtain ⟨i, is, rfl, hi, rfl⟩ := List.map_eq_cons_iff.1 hss
    rcases symbolOf_cases eof (desugarBlocks blocks) i with
      ⟨-, hsymbol⟩ | ⟨n, id, -, -, hsymbol⟩ | ⟨n, id, rfl, hid, hsymbol⟩
    · cases hi.symm.trans hsymbol
    · cases hi.symm.trans hsymbol
    · cases hi.symm.trans hsymbol
      obtain ⟨c, hc, rfl, rfl⟩ := (exists_mem_alternativesOf_iff eof hid).1 ⟨k, h⟩
      rw [Derivation.tokens, List.map_append]
      exact .expand hc (List.mem_of_getElem? hid) (ihi rfl) (ih rfl)

theorem Generates.derives (h : Generates blocks is w) (htokens : tokens.map (·.name) = w) :
    Derives (.ofTexts eof (desugarBlocks blocks))
      (is.map (symbolOf eof (desugarBlocks blocks))) tokens := by
  unfold Generates at h
  induction h generalizing tokens with
  | nil =>
    obtain rfl := List.map_eq_nil_iff.1 htokens
    exact ⟨.nil, rfl⟩
  | empty _ ih =>
    obtain ⟨d, hd⟩ := ih htokens
    exact ⟨.empty d, hd⟩
  | @name n is u v hn hu _ ih =>
    obtain rfl : u = [n] := hu
    obtain ⟨t, tokens, rfl, rfl, hrest⟩ := List.map_eq_cons_iff.1 htokens
    rcases symbolOf_cases eof (desugarBlocks blocks) (.name t.name) with
      ⟨h, -⟩ | ⟨n, id, h, -, hsymbol⟩ | ⟨n, id, h, hid, -⟩
    · cases h
    · cases h
      obtain ⟨d, rfl⟩ := ih hrest
      rw [List.map_cons, hsymbol]
      exact ⟨.terminal t rfl d, rfl⟩
    · cases h
      exact absurd (List.mem_of_getElem? hid) hn
  | @expand a is u v ha hR _ _ ihu ih =>
    obtain ⟨us, vs, rfl, hu, hv⟩ := List.map_eq_append_iff.1 htokens
    rcases symbolOf_cases eof (desugarBlocks blocks) (.name a.name) with
      ⟨h, -⟩ | ⟨n, id, h, hn, -⟩ | ⟨n, id, h, hid, hsymbol⟩
    · cases h
    · cases h
      exact absurd hR hn
    · cases h
      obtain ⟨k, hk⟩ := (exists_mem_alternativesOf_iff eof hid).2 ⟨a, ha, rfl, rfl⟩
      rw [List.map_cons, hsymbol]
      exact (derives_rule a.name hk (ihu hu)).append (ih hv)

/-- The grammar derives what the alternatives of the blocks derive. -/
theorem cfg_derives_iff_generates
    (hr : ((desugarBlocks blocks).map (·.1)).idxOf? name = some r) :
    (RuleSet.ofTexts eof (desugarBlocks blocks)).cfg.Derives [.nonterminal r] (w.map .terminal) ↔
      Generates blocks [.name name] w := by
  have hsymbol : symbolOf eof (desugarBlocks blocks) (.name name) = .rule name r := by
    simp [symbolOf, resolve, hr]
  let token (n : String) : Token := { name := n, lexeme := "", line := 0 }
  have hnames : (w.map token).map (·.name) = w := by
    rw [List.map_map]
    exact List.map_id w
  have hform : formOf (w.map token) = w.map .terminal := by
    rw [formOf, List.map_map]
    rfl
  rw [← hform]
  refine (derives_iff.symm : _ ↔ Derives _ [.rule name r] (w.map token)).trans ?_
  rw [← hsymbol]
  constructor
  · intro h
    have h : Generates blocks [.name name] ((w.map token).map (·.name)) := Derives.generates h
    rwa [hnames] at h
  · intro h
    exact h.derives hnames

end Resolved

/-! ## Texts -/

theorem Expr.Grouped.mono {P : String → Prop} {x : Expr} (h : x.Grouped P false) (top : Bool) :
    x.Grouped P top := by
  cases x with
  | alt => cases h.1
  | _ => exact h

/-- What is written is built of names of its tokens, with alternatives at the top or in groups. -/
theorem Expr.Written.grouped {P : String → Prop} {l : Regex.Level} {s : List Token} {x : Expr}
    (h : x.Written l s) (hs : ∀ t ∈ s, t.name = "id" → P t.lexeme) :
    x.Grouped P (l.rank ≤ 1) := by
  induction h with
  | alt _ _ _ _ iha ihb =>
    simp only [List.mem_append, List.mem_cons] at hs
    exact ⟨rfl, iha fun t ht => hs t (.inl ht), ihb fun t ht => hs t (.inr (.inr ht))⟩
  | concat _ _ iha ihb =>
    simp only [List.mem_append] at hs
    exact ⟨(iha fun t ht => hs t (.inl ht)), ihb fun t ht => hs t (.inr ht)⟩
  | sequence _ ih => exact (ih hs).mono true
  | repetition _ ih | atom _ ih => exact ih hs
  | star _ _ _ ih | optional _ _ _ ih =>
    simp only [List.mem_append] at hs
    exact ih fun t ht => hs t (.inl ht)
  | name h => exact hs _ List.mem_cons_self h
  | empty => trivial
  | group _ _ _ ih =>
    simp only [List.mem_append, List.mem_cons] at hs
    exact ih fun t ht => hs t (.inl (.inr ht))

/-- The blocks of a text are named, and their right-hand sides are built, as in a text. -/
theorem proper_of_writesBlocks {tokens : List Token} (h : WritesBlocks tokens blocks)
    (htokens : ∀ t ∈ tokens, t.name = "id" → ¬ Braced t.lexeme) : ∀ b ∈ blocks, b.Proper := by
  intro b hb
  obtain ⟨head, hhead, s, hs, hname, hlexeme, hbody⟩ := h.exists_of_mem hb
  exact ⟨hlexeme ▸ htokens head hhead hname, hbody.grouped fun t ht => htokens t (hs ht)⟩

/-- The blocks of a text are those that its tokens write, and no others. For any rule that has a
block, the context-free grammar of the text derives the strings that the blocks of the rule stand for
when they are read as extended BNF. -/
theorem cfg_derives_iff_matches {text : String} (h : readBlocks text = .ok blocks) :
    (∃ words eof, Vocabulary.patterns = .ok words ∧
      (Tokenizer.ofText words text).collect.ending = .ok eof ∧
        ∀ bs, WritesBlocks (Tokenizer.ofText words text).collect.tokens bs ↔ bs = blocks) ∧
    ∀ (config : Config) (name : String), (∃ b ∈ blocks, b.name = name) →
      ∃ rules r, readRules text config = .ok rules ∧ rules.ruleNumber? name = some r ∧
        ∀ w : List String, rules.cfg.Derives [.nonterminal r] (w.map .terminal) ↔
          Matches blocks (.name name) w := by
  have htokens := exists_tokens_of_readBlocks h
  refine ⟨htokens, fun config name hname => ?_⟩
  obtain ⟨words, eof, hwords, -, hwrites⟩ := htokens
  have hproper := proper_of_writesBlocks ((hwrites blocks).2 rfl) fun t ht =>
    Vocabulary.brace_not_mem_lexeme hwords ht
  have hnonempty : blocks.isEmpty = false := by
    obtain ⟨b, hb, -⟩ := hname
    simpa using List.ne_nil_of_mem hb
  have hmem : name ∈ (desugarBlocks blocks).map (·.1) := mem_names_iff.2 (.inl hname)
  cases hr : ((desugarBlocks blocks).map (·.1)).idxOf? name with
  | none => exact absurd hmem (List.idxOf?_eq_none_iff.1 hr)
  | some r =>
    refine ⟨.ofTexts config.eof (desugarBlocks blocks), r, ?_, ?_, fun w => ?_⟩
    · rw [readRules, h]
      show (if blocks.isEmpty then _ else _) = _
      rw [hnonempty]
      rfl
    · rw [RuleSet.ruleNumber?_ofTexts]
      exact hr
    · rw [cfg_derives_iff_generates hr]
      exact generates_iff_matches hproper hname

/-- A sum of two numbers is one word that the group of its block matches once, so the grammar derives
it. -/
theorem cfg_derives_iff_matches_sums : readBlocks sums = .ok sumsBlocks ∧
    (∃ b ∈ sumsBlocks, b.name = "E") ∧ Matches sumsBlocks (.name "E") ["num", "plus", "num"] ∧
      ∃ rules r, readRules sums {} = .ok rules ∧ rules.ruleNumber? "E" = some r ∧
        rules.cfg.Derives [.nonterminal r] (["num", "plus", "num"].map .terminal) := by
  have hname : ∃ b ∈ sumsBlocks, b.name = "E" := ⟨_, List.mem_cons_self, rfl⟩
  have hterminal (n : String) (hn : n ∉ sumsBlocks.map (·.name)) :
      Matches sumsBlocks (.name n) [n] :=
    .terminal fun b hb heq => hn (List.mem_map.2 ⟨b, hb, heq⟩)
  have hT : Matches sumsBlocks (.name "T") ["num"] :=
    .rule (List.mem_cons_of_mem _ List.mem_cons_self) (.left (hterminal "num" (by decide)))
  have hmore : Matches sumsBlocks (.group (.concat (.name "plus") (.name "T"))) ["plus", "num"] :=
    .group (.concat (hterminal "plus" (by decide)) hT)
  have hE : Matches sumsBlocks (.name "E") ["num", "plus", "num"] :=
    .rule List.mem_cons_self (.concat hT (.again hmore .done))
  obtain ⟨-, hrules⟩ := cfg_derives_iff_matches readBlocks_sums
  obtain ⟨rules, r, hread, hnumber, hderives⟩ := hrules {} "E" hname
  exact ⟨readBlocks_sums, hname, hE, rules, r, hread, hnumber, (hderives _).2 hE⟩

end Predictive.Grammar
