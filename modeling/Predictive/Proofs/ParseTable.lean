import Predictive.Grammar.Basic
import Predictive.Proofs.FirstSets
import Predictive.Proofs.FollowSets
import Mathlib.Data.List.Pairwise

/-!
# The parse table has one choice

A row is filled without a clash exactly if no terminal stands in it for two alternatives
(`Row.clash?_eq_none_iff`). In the table of a grammar, an alternative is chosen for a rule on a
terminal exactly if it is one of the rule's that the terminal predicts (`choice?_eq_some_iff`), and
no terminal predicts two (`Compiled.predicts_unique`).
-/

namespace Predictive.Grammar

/-! ## Rows -/

namespace Row

theorem fill_snd_eq_none_iff {taken row : Row} : (fill taken row).2 = none ↔
    (∀ c ∈ row, ∀ d ∈ taken, d.terminal = c.terminal → d.id = c.id) ∧
      row.Pairwise fun d c => d.terminal = c.terminal → d.id = c.id := by
  induction row generalizing taken with
  | nil => simp [fill]
  | cons c row ih =>
    unfold fill
    split
    · next hclash =>
      obtain ⟨d, hd, hdc⟩ := List.any_eq_true.1 hclash
      obtain ⟨hterminal, hid⟩ := of_decide_eq_true hdc
      constructor
      · exact fun h => nomatch h
      · exact fun h => absurd (h.1 c List.mem_cons_self d hd hterminal) hid
    · next hfree =>
      have hc : ∀ d ∈ taken, d.terminal = c.terminal → d.id = c.id := by
        intro d hd hterminal
        by_contra hid
        exact hfree (List.any_eq_true.2 ⟨d, hd, decide_eq_true ⟨hterminal, hid⟩⟩)
      show (fill (c :: taken) row).2 = none ↔ _
      rw [ih, List.pairwise_cons]
      constructor
      · rintro ⟨htaken, hrow⟩
        refine ⟨fun e he d hd => ?_, fun e he => htaken e he c List.mem_cons_self, hrow⟩
        rcases List.mem_cons.1 he with rfl | he
        · exact hc d hd
        · exact htaken e he d (List.mem_cons_of_mem _ hd)
      · rintro ⟨htaken, hfirst, hrow⟩
        refine ⟨fun e he d hd => ?_, hrow⟩
        rcases List.mem_cons.1 hd with rfl | hd
        · exact hfirst e he
        · exact htaken e (List.mem_cons_of_mem _ he) d hd

/-- There is no clash exactly if all cells with the same terminal choose the same alternative. -/
theorem clash?_eq_none_iff {row : Row} : row.clash? = none ↔
    ∀ c ∈ row, ∀ d ∈ row, d.terminal = c.terminal → d.id = c.id := by
  unfold clash?
  rw [fill_snd_eq_none_iff]
  constructor
  · rintro ⟨-, hrow⟩ c hc d hd
    have hsymm : Std.Symm fun d c : Cell => d.terminal = c.terminal → d.id = c.id :=
      ⟨fun d c h hcd => (h hcd.symm).symm⟩
    exact List.Pairwise.forall_of_forall (fun _ _ _ => rfl) hrow hd hc
  · intro h
    exact ⟨fun _ _ _ hd => (nomatch hd),
      List.pairwise_of_forall_mem_list fun d hd c hc => h c hc d hd⟩

theorem exists_of_fill_snd_eq_some {taken row : Row} {c : Cell} (h : (fill taken row).2 = some c) :
    c ∈ row ∧ ∃ d, (d ∈ taken ∨ d ∈ row) ∧ d.terminal = c.terminal ∧ d.id ≠ c.id := by
  induction row generalizing taken with
  | nil => cases h
  | cons e row ih =>
    unfold fill at h
    split at h
    · next hclash =>
      obtain rfl := Option.some.inj h
      obtain ⟨d, hd, hdc⟩ := List.any_eq_true.1 hclash
      exact ⟨List.mem_cons_self, d, .inl hd, of_decide_eq_true hdc⟩
    · change (fill (e :: taken) row).2 = some c at h
      obtain ⟨hc, d, hd, hdc⟩ := ih h
      refine ⟨List.mem_cons_of_mem _ hc, d, ?_, hdc⟩
      rcases hd with hd | hd
      · rcases List.mem_cons.1 hd with rfl | hd
        · exact .inr List.mem_cons_self
        · exact .inl hd
      · exact .inr (List.mem_cons_of_mem _ hd)

/-- A clash is between two cells with the same terminal that choose different alternatives. -/
theorem exists_of_clash?_eq_some {row : Row} {c : Cell} (h : row.clash? = some c) :
    c ∈ row ∧ ∃ d ∈ row, d.terminal = c.terminal ∧ d.id ≠ c.id := by
  obtain ⟨hc, d, hd | hd, hdc⟩ := exists_of_fill_snd_eq_some h
  · cases hd
  · exact ⟨hc, d, hd, hdc⟩

end Row

/-! ## The rows of the table -/

namespace RuleSet

variable {g : RuleSet} {F : Firsts} {r t : Nat} {a : Alternative Symbol}

theorem mem_row_iff {follow : SortedSet Nat} {rule : Rule} {c : Cell} :
    c ∈ row F follow rule ↔
      (c.id, c.alternative) ∈ rule.alternatives ∧ c.terminal ∈ predict F follow c.alternative := by
  unfold row
  rw [List.mem_flatMap]
  constructor
  · rintro ⟨⟨k, a⟩, ha, hc⟩
    obtain ⟨t, ht, rfl⟩ := List.mem_map.1 hc
    exact ⟨ha, ht⟩
  · rintro ⟨ha, ht⟩
    exact ⟨(c.id, c.alternative), ha, List.mem_map.2 ⟨c.terminal, ht, rfl⟩⟩

/-- The terminals that predict an alternative of rule `r`. -/
def predicts (g : RuleSet) (F : Firsts) (r : Nat) (a : Alternative Symbol) : SortedSet Nat :=
  predict F (fillFollow (g.followOf F g.occurrences r)) a

theorem mem_predicts_of_first (h : t ∈ (F.sequence a.sequence).terminals) :
    t ∈ g.predicts F r a := by
  unfold predicts predict
  dsimp only
  split
  · exact SortedSet.mem_union.2 (.inl h)
  · exact h

theorem mem_predicts_of_follow (hnull : (F.sequence a.sequence).nullable = true)
    (h : t ∈ fillFollow (g.followOf F g.occurrences r)) : t ∈ g.predicts F r a := by
  unfold predicts predict
  dsimp only
  rw [hnull]
  exact SortedSet.mem_union.2 (.inr h)

theorem getElem?_rows (r : Nat) :
    (g.rows F ((g.follows F).map fillFollow))[r]? =
      g.rules[r]?.map (row F (fillFollow (g.followOf F g.occurrences r))) := by
  unfold rows List.zip
  rw [List.getElem?_map, List.getElem?_zipWith]
  by_cases hr : r < g.rules.length
  · have hfollow : ((g.follows F).map fillFollow)[r]? =
        some (fillFollow (g.followOf F g.occurrences r)) := by
      simp [follows, hr]
    rw [hfollow, List.getElem?_eq_getElem hr]
    rfl
  · rw [List.getElem?_eq_none (by omega)]
    rfl

theorem firstClash_eq_none_iff {rows : List Row} :
    firstClash rows = none ↔ ∀ row ∈ rows, row.clash? = none := by
  unfold firstClash
  rw [List.findSome?_eq_none_iff]
  constructor
  · intro h row hrow
    obtain ⟨i, hi, rfl⟩ := List.mem_iff_getElem.1 hrow
    have := h (rows[i], i) (by simp [List.mem_zipIdx_iff_getElem?])
    simpa using this
  · rintro h ⟨row, i⟩ hrow
    have := h row (List.fst_mem_of_mem_zipIdx hrow)
    simp [this]

theorem getElem?_of_firstClash_eq_some {rows : List Row} {c : Cell}
    (h : firstClash rows = some (r, c)) : ∃ row, rows[r]? = some row ∧ row.clash? = some c := by
  obtain ⟨⟨row, i⟩, hrow, hclash⟩ := List.exists_of_findSome?_eq_some h
  obtain ⟨d, hd, heq⟩ := Option.map_eq_some_iff.1 hclash
  obtain ⟨rfl, rfl⟩ := Prod.mk.inj heq
  exact ⟨row, List.mem_zipIdx_iff_getElem?.1 hrow, hd⟩

/-- The cells in the row of a rule are its alternatives, each on the terminals that predict it. -/
theorem mem_rows_iff {c : Cell} : c ∈ (g.rows F ((g.follows F).map fillFollow))[r]?.getD [] ↔
    (c.id, c.alternative) ∈ g.alternativesOf r ∧ c.terminal ∈ g.predicts F r c.alternative := by
  rw [getElem?_rows]
  unfold alternativesOf
  cases g.rules[r]? with
  | none => simp
  | some rule => exact mem_row_iff

end RuleSet

/-! ## Compiled grammars -/

/-- The sets and the table are those of the rules, and the table has no clash. -/
structure Compiled (g : Grammar) : Prop where
  firsts : g.toRuleSet.firsts = .ok g.firsts
  table : g.table = g.rows g.firsts ((g.toRuleSet.follows g.firsts).map RuleSet.fillFollow)
  clash : RuleSet.firstClash g.table = none

theorem compiled_of_ofRuleSet {rules : RuleSet} {g : Grammar} (h : ofRuleSet rules = .ok g) :
    g.toRuleSet = rules ∧ g.Compiled := by
  unfold ofRuleSet at h
  split at h
  · cases h
  · next F hF =>
    dsimp only at h
    split at h
    · cases h
    · next hclash =>
      cases h
      exact ⟨rfl, hF, rfl, hclash⟩

namespace Compiled

variable {g : Grammar} {r t k l : Nat} {a b : Alternative Symbol}

/-- The cells in the row of a rule are its alternatives, each on the terminals that predict it. -/
theorem mem_row_iff (hg : g.Compiled) {c : Cell} : c ∈ g.table[r]?.getD [] ↔
    (c.id, c.alternative) ∈ g.alternativesOf r ∧
      c.terminal ∈ g.predicts g.firsts r c.alternative := by
  rw [hg.table]
  exact RuleSet.mem_rows_iff

/-- No terminal predicts two alternatives of a rule. -/
theorem predicts_unique (hg : g.Compiled) (ha : (k, a) ∈ g.alternativesOf r)
    (hb : (l, b) ∈ g.alternativesOf r) (hat : t ∈ g.predicts g.firsts r a)
    (hbt : t ∈ g.predicts g.firsts r b) : k = l := by
  have hac : ⟨t, k, a⟩ ∈ g.table[r]?.getD [] := hg.mem_row_iff.2 ⟨ha, hat⟩
  have hbc : ⟨t, l, b⟩ ∈ g.table[r]?.getD [] := hg.mem_row_iff.2 ⟨hb, hbt⟩
  cases hrow : g.table[r]? with
  | none => simp [hrow] at hac
  | some row =>
    rw [hrow] at hac hbc
    have hclash := RuleSet.firstClash_eq_none_iff.1 hg.clash row (List.mem_of_getElem? hrow)
    exact Row.clash?_eq_none_iff.1 hclash _ hbc _ hac rfl

/-- A cell is found exactly if it is in the row of the rule: there is no other with its terminal. -/
theorem cell?_eq_some_iff (hg : g.Compiled) (hr : g.Resolved) {c : Cell} :
    g.cell? r t = some c ↔ c.terminal = t ∧ (c.id, c.alternative) ∈ g.alternativesOf r ∧
      t ∈ g.predicts g.firsts r c.alternative := by
  unfold cell?
  constructor
  · intro hc
    have ht := List.find?_some hc
    obtain rfl := of_decide_eq_true ht
    exact ⟨rfl, hg.mem_row_iff.1 (List.mem_of_find?_eq_some hc)⟩
  · rintro ⟨rfl, ha, hat⟩
    have hmem : c ∈ g.table[r]?.getD [] := hg.mem_row_iff.2 ⟨ha, hat⟩
    cases hfind : (g.table[r]?.getD []).find? fun d => d.terminal = c.terminal with
    | none => exact absurd (decide_eq_true rfl) (List.find?_eq_none.1 hfind _ hmem)
    | some d =>
      have hd := hg.mem_row_iff.1 (List.mem_of_find?_eq_some hfind)
      have ht := List.find?_some hfind
      obtain ⟨terminal, k, a⟩ := c
      obtain ⟨terminal', l, b⟩ := d
      obtain rfl : terminal' = terminal := of_decide_eq_true ht
      obtain rfl : l = k := hg.predicts_unique hd.1 ha hd.2 hat
      obtain rfl : b = a := hr.unique hd.1 ha
      rfl

/-- An alternative is chosen exactly if it is one of the rule's and the terminal predicts it. -/
theorem choice?_eq_some_iff (hg : g.Compiled) (hr : g.Resolved) :
    g.choice? r t = some a ↔
      ∃ k, (k, a) ∈ g.alternativesOf r ∧ t ∈ g.predicts g.firsts r a := by
  unfold choice?
  rw [Option.map_eq_some_iff]
  constructor
  · rintro ⟨c, hc, rfl⟩
    exact ⟨c.id, ((hg.cell?_eq_some_iff hr).1 hc).2⟩
  · rintro ⟨k, ha, hat⟩
    exact ⟨⟨t, k, a⟩, (hg.cell?_eq_some_iff hr).2 ⟨rfl, ha, hat⟩, rfl⟩

/-- An alternative that is chosen before a token is one of the rule's. -/
theorem exists_mem_of_choice (hg : g.Compiled) (hr : g.Resolved) {token : String}
    (h : (g.terminalNumber? token).bind (g.choice? r) = some a) :
    ∃ k, (k, a) ∈ g.alternativesOf r := by
  obtain ⟨x, -, hchoice⟩ := Option.bind_eq_some_iff.1 h
  obtain ⟨k, ha, -⟩ := (hg.choice?_eq_some_iff hr).1 hchoice
  exact ⟨k, ha⟩

end Compiled

end Predictive.Grammar
