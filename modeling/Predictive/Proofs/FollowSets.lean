import Predictive.Grammar.Follow
import Predictive.Proofs.ContextFree
import Predictive.Proofs.Reachability
import Predictive.Proofs.SortedSet

/-!
# FOLLOW sets are closed

The FOLLOW set of a rule collects what comes directly after the rules from which it inherits
(`mem_followOf_iff`). So it holds the end of the input if the rule is the start
(`zero_mem_followOf`), what the symbols after an occurrence begin with (`mem_followOf_of_first`),
and, where those can be empty, the FOLLOW set of the rule in which the occurrence stands
(`mem_followOf_of_follow`).
-/

namespace Predictive.Grammar

open Relation (ReflTransGen)

/-! ## Occurrences -/

theorem mem_occurrencesIn_iff {owner : Nat} {ss : List Symbol} {o : Occurrence} :
    o ∈ occurrencesIn owner ss ↔
      o.owner = owner ∧ ∃ before name, ss = before ++ .rule name o.rule :: o.after := by
  induction ss with
  | nil => simp [occurrencesIn]
  | cons s ss ih =>
    have hcons : (∃ before name, s :: ss = before ++ .rule name o.rule :: o.after) ↔
        (∃ name, s = .rule name o.rule ∧ ss = o.after) ∨
          ∃ before name, ss = before ++ .rule name o.rule :: o.after := by
      constructor
      · rintro ⟨before, name, h⟩
        cases before with
        | nil => exact .inl ⟨name, List.cons.inj h⟩
        | cons _ before => exact .inr ⟨before, name, (List.cons.inj h).2⟩
      · rintro (⟨name, rfl, rfl⟩ | ⟨before, name, rfl⟩)
        · exact ⟨[], name, rfl⟩
        · exact ⟨s :: before, name, rfl⟩
    rw [hcons]
    cases s with
    | rule name id =>
      unfold occurrencesIn
      rw [List.mem_cons, ih]
      obtain ⟨p, r, after⟩ := o
      simp only [Occurrence.mk.injEq, Symbol.rule.injEq]
      grind
    | terminal name id => simpa [occurrencesIn] using ih
    | empty => simpa [occurrencesIn] using ih

namespace RuleSet

variable {g : RuleSet} {F : Firsts} {o : Occurrence} {r x : Nat}

theorem mem_alternativesOf_iff {k : Nat} {a : Alternative Symbol} :
    (k, a) ∈ g.alternativesOf r ↔ ∃ rule, (rule, r) ∈ g.rules.zipIdx ∧ (k, a) ∈ rule.alternatives := by
  unfold alternativesOf
  simp only [List.mem_zipIdx_iff_getElem?]
  cases g.rules[r]? <;> simp

theorem mem_occurrences_iff : o ∈ g.occurrences ↔
    ∃ k a, (k, a) ∈ g.alternativesOf o.owner ∧
      ∃ before name, a.sequence = before ++ .rule name o.rule :: o.after := by
  unfold occurrences
  simp only [mem_alternativesOf_iff, List.mem_flatMap]
  constructor
  · rintro ⟨⟨rule, owner⟩, hrule, ⟨k, a⟩, ha, ho⟩
    obtain ⟨rfl, hseq⟩ := mem_occurrencesIn_iff.1 ho
    exact ⟨k, a, ⟨rule, hrule, ha⟩, hseq⟩
  · rintro ⟨k, a, ⟨rule, hrule, ha⟩, hseq⟩
    exact ⟨(rule, o.owner), hrule, (k, a), ha, mem_occurrencesIn_iff.2 ⟨rfl, hseq⟩⟩

theorem owner_lt_length (h : o ∈ g.occurrences) : o.owner < g.rules.length := by
  obtain ⟨k, a, ha, -⟩ := mem_occurrences_iff.1 h
  exact lt_length_of_mem_alternativesOf ha

/-! ## The sets -/

theorem mem_directFollow_iff {places : List Occurrence} : x ∈ directFollow F places r ↔
    (r = 0 ∧ x = 0) ∨ ∃ o ∈ places, o.rule = r ∧ x ∈ (F.sequence o.after).terminals := by
  unfold directFollow
  dsimp only
  split
  · next hr =>
    rw [SortedSet.mem_insert, SortedSet.mem_foldl_union]
    simp [hr, and_assoc]
  · next hr =>
    rw [SortedSet.mem_foldl_union]
    simp [hr, and_assoc]

theorem mem_inheritsFrom_iff {places : List Occurrence} {q : Nat} :
    q ∈ inheritsFrom F places r ↔
      ∃ o ∈ places, o.owner = q ∧ o.rule = r ∧ (F.sequence o.after).nullable = true := by
  unfold inheritsFrom
  simp only [List.mem_map, List.mem_filter, decide_eq_true_eq]
  grind

theorem mem_followOf_iff : x ∈ g.followOf F g.occurrences r ↔
    ∃ q, ReflTransGen (Reach.Edge (inheritsFrom F g.occurrences)) r q ∧
      x ∈ directFollow F g.occurrences q := by
  have hbound : ∀ v, ∀ w ∈ inheritsFrom F g.occurrences v, w < g.rules.length := by
    intro v w hw
    obtain ⟨o, ho, rfl, -⟩ := mem_inheritsFrom_iff.1 hw
    exact owner_lt_length ho
  unfold followOf
  dsimp only
  rw [SortedSet.mem_foldl_union]
  simp only [SortedSet.not_mem_empty, false_or, ← SortedSet.mem_def, mem_reach_iff hbound,
    SortedSet.mem_singleton, exists_eq_left]

/-- The end of the input comes after the start. -/
theorem zero_mem_followOf : 0 ∈ g.followOf F g.occurrences 0 :=
  mem_followOf_iff.2 ⟨0, .refl, mem_directFollow_iff.2 (.inl ⟨rfl, rfl⟩)⟩

theorem mem_followOf_of_first {owner : Nat} {after : List Symbol}
    (ho : ⟨owner, r, after⟩ ∈ g.occurrences) (hx : x ∈ (F.sequence after).terminals) :
    x ∈ g.followOf F g.occurrences r :=
  mem_followOf_iff.2 ⟨r, .refl, mem_directFollow_iff.2 (.inr ⟨⟨owner, r, after⟩, ho, rfl, hx⟩)⟩

theorem mem_followOf_of_follow {owner : Nat} {after : List Symbol}
    (ho : ⟨owner, r, after⟩ ∈ g.occurrences) (hnull : (F.sequence after).nullable = true)
    (hx : x ∈ g.followOf F g.occurrences owner) : x ∈ g.followOf F g.occurrences r := by
  obtain ⟨q, hpath, hq⟩ := mem_followOf_iff.1 hx
  have hedge : Reach.Edge (inheritsFrom F g.occurrences) r owner :=
    mem_inheritsFrom_iff.2 ⟨⟨owner, r, after⟩, ho, rfl, rfl, hnull⟩
  exact mem_followOf_iff.2 ⟨q, .head hedge hpath, hq⟩

theorem mem_fillFollow_iff {s : SortedSet Nat} :
    x ∈ fillFollow s ↔ x ∈ s ∨ x = 0 ∧ ∀ y, ¬ y ∈ s := by
  unfold fillFollow
  split
  · next hempty =>
    have hnone := SortedSet.eq_empty_iff.1 (SortedSet.isEmpty_iff.1 hempty)
    simp [hnone]
  · next hne =>
    obtain ⟨y, hy⟩ := SortedSet.isEmpty_eq_false_iff.1 (Bool.not_eq_true _ ▸ hne)
    rw [iff_self_or]
    rintro ⟨-, hnone⟩
    exact absurd hy (hnone y)

theorem mem_fillFollow {s : SortedSet Nat} (h : x ∈ s) : x ∈ fillFollow s :=
  mem_fillFollow_iff.2 (.inl h)

/-- For the table, something comes after every rule. -/
theorem exists_mem_fillFollow (s : SortedSet Nat) : ∃ x, x ∈ fillFollow s := by
  unfold fillFollow
  split
  · exact ⟨0, SortedSet.mem_singleton.2 rfl⟩
  · next hne => exact SortedSet.isEmpty_eq_false_iff.1 (Bool.not_eq_true _ ▸ hne)

end RuleSet

end Predictive.Grammar
