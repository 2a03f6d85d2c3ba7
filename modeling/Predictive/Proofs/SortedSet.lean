import Predictive.SortedSet
import Mathlib.Data.Finset.Card

/-!
# Members of sorted sets

What an enumeration in ascending order gives: no member occurs twice (`nodup_toList`), and the first
member is the least (`first?_eq_some_iff`).
-/

namespace Predictive.SortedSet

variable {α : Type} [Ord α]

theorem nodup_toList [Std.LawfulEqOrd α] (s : SortedSet α) : s.toList.Nodup := by
  refine s.ascending.imp fun {a b} hab h => ?_
  subst h
  simp at hab

/-- A member comes first exactly if no other is less. -/
theorem first?_eq_some_iff [Std.TransOrd α] {s : SortedSet α} {a : α} :
    s.first? = some a ↔ a ∈ s ∧ ∀ b ∈ s, compare a b ≠ .gt := by
  obtain ⟨l, hl⟩ := s
  simp only [first?, mem_def]
  cases l with
  | nil => simp
  | cons c l =>
    have hc := (List.pairwise_cons.1 hl).1
    rw [List.head?_cons, Option.some.injEq]
    constructor
    · rintro rfl
      refine ⟨List.mem_cons_self, fun b hb => ?_⟩
      rcases List.mem_cons.1 hb with rfl | hb
      · simp
      · simp [hc b hb]
    · rintro ⟨ha, hle⟩
      rcases List.mem_cons.1 ha with rfl | ha
      · rfl
      · exact absurd (Std.OrientedCmp.gt_of_lt (hc a ha)) (hle c List.mem_cons_self)

theorem eq_empty_iff {s : SortedSet α} : s = ∅ ↔ ∀ a, ¬ a ∈ s := by
  constructor
  · rintro rfl a
    exact not_mem_empty a
  · intro h
    exact toList_injective (List.eq_nil_iff_forall_not_mem.2 h)

theorem isEmpty_eq_false_iff {s : SortedSet α} : s.isEmpty = false ↔ ∃ a, a ∈ s := by
  rw [← Bool.not_eq_true, isEmpty_iff, eq_empty_iff]
  simp

/-- A union has more members than a set exactly if the other set has one that is not in it. -/
theorem size_lt_size_union_iff [Std.TransOrd α] [Std.LawfulEqOrd α] [DecidableEq α]
    {s t : SortedSet α} : s.size < (s ∪ t).size ↔ ∃ a ∈ t, ¬ a ∈ s := by
  constructor
  · intro hlt
    by_contra hnone
    have hsub : ∀ a ∈ t, a ∈ s := fun a ha => not_not.1 fun hs => hnone ⟨a, ha, hs⟩
    have hunion : s ∪ t = s := ext fun a => by
      rw [mem_union]
      exact or_iff_left_of_imp (hsub a)
    rw [hunion] at hlt
    exact Nat.lt_irrefl _ hlt
  · rintro ⟨a, ha, hs⟩
    have hcard (u : SortedSet α) : u.size = u.toList.toFinset.card :=
      (List.toFinset_card_of_nodup u.nodup_toList).symm
    have hmem {u : SortedSet α} {b : α} : b ∈ u.toList.toFinset ↔ b ∈ u := List.mem_toFinset
    rw [hcard, hcard]
    refine Finset.card_lt_card ⟨fun b hb => hmem.2 (mem_union.2 (.inl (hmem.1 hb))), fun hsub => ?_⟩
    exact hs (hmem.1 (hsub (hmem.2 (mem_union.2 (.inr ha)))))

theorem mem_foldl_union [Std.TransOrd α] [Std.LawfulEqOrd α] {β : Type} {f : β → SortedSet α}
    {l : List β} {s : SortedSet α} {x : α} :
    x ∈ l.foldl (fun all b => all ∪ f b) s ↔ x ∈ s ∨ ∃ b ∈ l, x ∈ f b := by
  induction l generalizing s with
  | nil => simp
  | cons b l ih =>
    rw [List.foldl_cons, ih, mem_union, List.exists_mem_cons_iff]
    tauto

end Predictive.SortedSet
