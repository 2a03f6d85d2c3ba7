import Predictive.Grammar.First
import Predictive.Proofs.ContextFree
import Predictive.Proofs.Except
import Predictive.Proofs.Resolution
import Predictive.Proofs.SortedSet
import Mathlib.Data.List.Dedup

/-!
# FIRST sets solve their equations

The depth-first visit finds the sets of rules in an order in which each set depends on sets found
before it (`Firsts.Built`). So the set of a rule is the union over its alternatives
(`RuleSet.get_firsts`), and rules have ranks that decrease towards the rules with which an
alternative can begin (`RuleSet.consults_rank`). It follows that the sets hold whatever is derived:
`sequence_of_derivation`.
-/

namespace Predictive.Grammar

namespace Firsts

variable {F G : Firsts} {P Q : Nat → Prop} {r : Nat} {ss : List Symbol}

/-! ## Members of unions -/

theorem mem_terminals_union {alternatives : List (Nat × Alternative Symbol)} {x : Nat} :
    x ∈ (F.union alternatives).terminals ↔
      ∃ a ∈ alternatives, x ∈ (F.sequence a.2.sequence).terminals := by
  unfold union
  rw [SortedSet.mem_foldl_union]
  simp

theorem nullable_union {alternatives : List (Nat × Alternative Symbol)} :
    (F.union alternatives).nullable = true ↔
      ∃ a ∈ alternatives, (F.sequence a.2.sequence).nullable = true := by
  unfold union
  simp

/-! ## The sets on which a set depends -/

/-- The set of the rule is known. -/
def Has (F : Firsts) (r : Nat) : Prop := (F.lookup r).isSome = true

/-- `P` holds for each rule whose set is consulted for that of a run of symbols. -/
def Consults (F : Firsts) (P : Nat → Prop) : List Symbol → Prop
  | [] => True
  | .terminal _ _ :: _ => True
  | .empty :: ss => F.Consults P ss
  | .rule _ r :: ss => P r ∧ ((F.get r).nullable = true → F.Consults P ss)

/-- The sets known in `F` are the same in `G`. -/
def Extends (F G : Firsts) : Prop := ∀ r first, F.lookup r = some first → G.lookup r = some first

theorem Extends.has (h : F.Extends G) (hr : F.Has r) : G.Has r := by
  obtain ⟨first, hfirst⟩ := Option.isSome_iff_exists.1 hr
  exact Option.isSome_iff_exists.2 ⟨first, h r first hfirst⟩

theorem Extends.get_eq (h : F.Extends G) (hr : F.Has r) : G.get r = F.get r := by
  obtain ⟨first, hfirst⟩ := Option.isSome_iff_exists.1 hr
  unfold get
  rw [hfirst, h r first hfirst]

theorem Consults.mono (h : F.Consults P ss) (hPQ : ∀ r, P r → Q r) : F.Consults Q ss := by
  fun_induction Consults F P ss with
  | case1 => trivial
  | case2 => trivial
  | case3 ss ih => exact ih h
  | case4 name r ss ih => exact ⟨hPQ r h.1, fun hr => ih (h.2 hr)⟩

theorem consults_of_forall (h : ∀ name r, .rule name r ∈ ss → P r) : F.Consults P ss := by
  fun_induction Consults F P ss with
  | case1 => trivial
  | case2 => trivial
  | case3 ss ih => exact ih fun name r hr => h name r (List.mem_cons_of_mem _ hr)
  | case4 name r ss ih =>
    exact ⟨h name r List.mem_cons_self,
      fun _ => ih fun name r hr => h name r (List.mem_cons_of_mem _ hr)⟩

theorem Consults.extend (h : F.Consults P ss) (hP : ∀ r, P r → F.Has r) (hFG : F.Extends G) :
    G.Consults P ss := by
  fun_induction Consults F P ss with
  | case1 => trivial
  | case2 => trivial
  | case3 ss ih => exact ih h
  | case4 name r ss ih =>
    refine ⟨h.1, fun hr => ?_⟩
    rw [hFG.get_eq (hP r h.1)] at hr
    exact ih (h.2 hr)

theorem sequence_eq_of_extends (h : F.Consults F.Has ss) (hFG : F.Extends G) :
    G.sequence ss = F.sequence ss := by
  fun_induction Consults F F.Has ss with
  | case1 => rfl
  | case2 => rfl
  | case3 ss ih => exact ih h
  | case4 name r ss ih =>
    unfold sequence
    rw [hFG.get_eq h.1]
    dsimp only
    split
    · next hr => rw [ih (h.2 hr)]
    · rfl

theorem union_eq_of_extends {alternatives : List (Nat × Alternative Symbol)}
    (h : ∀ a ∈ alternatives, F.Consults F.Has a.2.sequence) (hFG : F.Extends G) :
    G.union alternatives = F.union alternatives := by
  have hmap : (alternatives.map fun a => G.sequence a.2.sequence) =
      alternatives.map fun a => F.sequence a.2.sequence :=
    List.map_congr_left fun a ha => sequence_eq_of_extends (h a ha) hFG
  unfold union
  rw [hmap]

/-! ## Sets in the order in which they are found -/

/-- Each set is found once, as the union over the alternatives of its rule, when all sets that it
depends on are known. -/
inductive Built (g : RuleSet) : Firsts → Prop
  | nil : Built g []
  | cons {F : Firsts} {r : Nat} (hF : Built g F) (hr : r < g.rules.length)
      (hnew : F.lookup r = none)
      (hseq : ∀ a ∈ g.alternativesOf r, F.Consults F.Has a.2.sequence) :
      Built g ((r, F.union (g.alternativesOf r)) :: F)

/-- The place of a rule in the order in which the sets are found, counted from 1. -/
def rank : Firsts → Nat → Nat
  | [], _ => 0
  | (q, _) :: F, r => if r = q then F.length + 1 else rank F r

theorem rank_le (F : Firsts) (r : Nat) : F.rank r ≤ F.length := by
  fun_induction rank F r with
  | case1 => exact Nat.le_refl 0
  | case2 => exact Nat.le_refl _
  | case3 r q first F hne ih => exact Nat.le_succ_of_le ih

theorem extends_cons (h : F.lookup r = none) (first : FirstSet) : F.Extends ((r, first) :: F) := by
  intro q found hq
  rw [List.lookup_cons]
  split
  · next heq =>
    rw [eq_of_beq heq, h] at hq
    cases hq
  · exact hq

theorem has_cons_iff {q : Nat} {first : FirstSet} : Has ((r, first) :: F) q ↔ q = r ∨ F.Has q := by
  unfold Has
  rw [List.lookup_cons]
  split <;> simp_all

theorem has_iff_mem : F.Has r ↔ r ∈ F.map Prod.fst := by
  induction F with
  | nil => simp [Has]
  | cons e F ih => rw [has_cons_iff, ih, List.map_cons, List.mem_cons]

namespace Built

variable {g : RuleSet}

theorem lt_length (h : Built g F) (hr : F.Has r) : r < g.rules.length := by
  induction h with
  | nil => simp [Has] at hr
  | cons _ hlt _ _ ih =>
    rcases has_cons_iff.1 hr with rfl | hr
    · exact hlt
    · exact ih hr

/-- Each rule is found once, so there are no more sets than rules. -/
theorem length_le (h : Built g F) : F.length ≤ g.rules.length := by
  have hnodup : (F.map Prod.fst).Nodup := by
    induction h with
    | nil => simp
    | @cons F r _ _ hnew _ ih =>
      refine List.nodup_cons.2 ⟨fun hmem => ?_, ih⟩
      have hhas := has_iff_mem.2 hmem
      simp [Has, hnew] at hhas
  have hsub : F.map Prod.fst ⊆ List.range g.rules.length := fun r hr =>
    List.mem_range.2 (h.lt_length (has_iff_mem.2 hr))
  simpa using (hnodup.subperm hsub).length_le

/-- The set of a rule is the union over its alternatives, and consults sets found before it. -/
theorem get_eq_and_consults (h : Built g F) (hr : F.Has r) :
    F.get r = F.union (g.alternativesOf r) ∧ ∀ a ∈ g.alternativesOf r,
      F.Consults (fun q => F.Has q ∧ F.rank q < F.rank r) a.2.sequence := by
  induction h with
  | nil => simp [Has] at hr
  | @cons F p hF _ hnew hseq ih =>
    have hext := extends_cons hnew (F.union (g.alternativesOf p))
    have hrank : ∀ q, F.Has q → rank ((p, F.union (g.alternativesOf p)) :: F) q = F.rank q := by
      intro q hq
      have hne : q ≠ p := by
        rintro rfl
        simp [Has, hnew] at hq
      simp [rank, hne]
    rcases has_cons_iff.1 hr with rfl | hr
    · refine ⟨?_, fun a ha => ?_⟩
      · rw [union_eq_of_extends hseq hext]
        simp [get]
      · refine ((hseq a ha).extend (fun _ hq => hq) hext).mono fun q hq => ⟨hext.has hq, ?_⟩
        rw [hrank q hq]
        simpa [rank] using Nat.lt_succ_of_le (F.rank_le q)
    · obtain ⟨hget, hcons⟩ := ih hr
      have hhas : ∀ a ∈ g.alternativesOf r, F.Consults F.Has a.2.sequence := fun a ha =>
        (hcons a ha).mono fun q hq => hq.1
      refine ⟨?_, fun a ha => ?_⟩
      · rw [hext.get_eq hr, hget, union_eq_of_extends hhas hext]
      · refine ((hcons a ha).extend (fun q hq => hq.1) hext).mono fun q hq => ?_
        exact ⟨hext.has hq.1, by rw [hrank q hq.1, hrank r hr]; exact hq.2⟩

end Built

/-! ## The visit -/

/-- `G` is found from `F`, without the rules of `path` that `F` does not know. -/
structure Grows (g : RuleSet) (path : List Nat) (F G : Firsts) : Prop where
  built : Built g G
  keeps : F.Extends G
  path : ∀ q ∈ path, F.lookup q = none → G.lookup q = none

namespace Grows

variable {g : RuleSet} {path : List Nat} {H : Firsts}

theorem refl (h : Built g F) : Grows g path F F := ⟨h, fun _ _ hr => hr, fun _ _ hq => hq⟩

theorem trans (hFG : Grows g path F G) (hGH : Grows g path G H) : Grows g path F H :=
  ⟨hGH.built, fun r first hr => hGH.keeps r first (hFG.keeps r first hr),
    fun q hq hF => hGH.path q hq (hFG.path q hq hF)⟩

end Grows

end Firsts

namespace RuleSet

open Firsts

variable {g : RuleSet} {path : List Nat} {F G : Firsts}

/-- The rules of a run of symbols are rules of `g`. -/
def InRange (g : RuleSet) (ss : List Symbol) : Prop :=
  ∀ name id, .rule name id ∈ ss → id < g.rules.length

theorem lt_length_of_names {name : String} {id : Nat} (h : g.Names (.rule name id)) :
    id < g.rules.length := by
  obtain ⟨hlt, -⟩ := List.findIdx?_eq_some_iff_getElem.1 h
  exact hlt

theorem Resolved.inRange (hg : g.Resolved) {r k : Nat} {a : Alternative Symbol}
    (ha : (k, a) ∈ g.alternativesOf r) : g.InRange a.sequence :=
  fun _ _ hs => lt_length_of_names (hg.names ha _ hs)

theorem grows_visitSequence {visit : Firsts → Nat → Except Nat Firsts}
    (hvisit : ∀ F r G, Built g F → r < g.rules.length → visit F r = .ok G →
      Grows g path F G ∧ G.Has r)
    {ss : List Symbol} (hss : g.InRange ss) (hF : Built g F)
    (h : visitSequence visit F ss = .ok G) : Grows g path F G ∧ G.Consults G.Has ss := by
  induction ss generalizing F with
  | nil =>
    cases h
    exact ⟨.refl hF, trivial⟩
  | cons s ss ih =>
    have htail : g.InRange ss := fun name id hs => hss name id (List.mem_cons_of_mem _ hs)
    cases s with
    | terminal name id =>
      cases h
      exact ⟨.refl hF, trivial⟩
    | empty => exact ih htail hF h
    | rule name r =>
      unfold visitSequence at h
      obtain ⟨F', hvisited, h⟩ := bind_eq_ok_iff.1 h
      obtain ⟨hgrows, hhas⟩ := hvisit F r F' hF (hss name r List.mem_cons_self) hvisited
      split at h
      · obtain ⟨hrest, hcons⟩ := ih htail hgrows.built h
        exact ⟨hgrows.trans hrest, hrest.keeps.has hhas, fun _ => hcons⟩
      · next hnull =>
        obtain rfl := pure_eq_ok_iff.1 h
        exact ⟨hgrows, hhas, fun hr => absurd hr hnull⟩

theorem grows_foldlM_visitSequence {visit : Firsts → Nat → Except Nat Firsts}
    (hvisit : ∀ F r G, Built g F → r < g.rules.length → visit F r = .ok G →
      Grows g path F G ∧ G.Has r)
    {alternatives : List (Nat × Alternative Symbol)}
    (hrange : ∀ a ∈ alternatives, g.InRange a.2.sequence) (hF : Built g F)
    (h : alternatives.foldlM (fun F a => visitSequence visit F a.2.sequence) F = .ok G) :
    Grows g path F G ∧ ∀ a ∈ alternatives, G.Consults G.Has a.2.sequence := by
  induction alternatives generalizing F with
  | nil =>
    cases h
    exact ⟨.refl hF, by simp⟩
  | cons a alternatives ih =>
    rw [List.foldlM_cons] at h
    obtain ⟨F', hfirst, h⟩ := bind_eq_ok_iff.1 h
    obtain ⟨hgrows, hcons⟩ := grows_visitSequence hvisit (hrange a List.mem_cons_self) hF hfirst
    obtain ⟨hrest, hothers⟩ := ih (fun b hb => hrange b (List.mem_cons_of_mem _ hb)) hgrows.built h
    refine ⟨hgrows.trans hrest, fun b hb => ?_⟩
    rcases List.mem_cons.1 hb with rfl | hb
    · have hext := hcons.extend (fun _ hq => hq) hrest.keeps
      exact hext.mono fun q hq => hrest.keeps.has hq
    · exact hothers b hb

/-- A visit finds the set of the rule, by sets found before it. A rule that is being visited is not
found meanwhile, since to meet it again is an error. -/
theorem grows_visit (hg : g.Resolved) (depth : Nat) {r : Nat} (hF : Built g F)
    (hr : r < g.rules.length) (h : g.visit depth path F r = .ok G) :
    Grows g path F G ∧ G.Has r := by
  induction depth generalizing path F G r with
  | zero =>
    unfold visit at h
    split at h
    · next hknown =>
      cases h
      exact ⟨.refl hF, hknown⟩
    · split at h <;> cases h
  | succ depth ih =>
    unfold visit at h
    split at h
    · next hknown =>
      cases h
      exact ⟨.refl hF, hknown⟩
    · next hunknown =>
      split at h
      · cases h
      · next hpath =>
        obtain ⟨F', hfold, h⟩ := bind_eq_ok_iff.1 h
        obtain rfl := pure_eq_ok_iff.1 h
        have hrange : ∀ a ∈ g.alternativesOf r, g.InRange a.2.sequence := fun a ha => hg.inRange ha
        obtain ⟨hgrows, hcons⟩ :=
          grows_foldlM_visitSequence (fun F q G hF hq h => ih hF hq h) hrange hF hfold
        have hnew : F'.lookup r = none :=
          hgrows.path r List.mem_cons_self (Option.not_isSome_iff_eq_none.1 hunknown)
        refine ⟨⟨.cons hgrows.built hr hnew hcons, ?_, fun q hq hFq => ?_⟩, ?_⟩
        · intro q first hq
          exact extends_cons hnew _ q first (hgrows.keeps q first hq)
        · have hne : (q == r) = false := beq_eq_false_iff_ne.2 fun h => hpath (h ▸ hq)
          rw [List.lookup_cons, hne]
          exact hgrows.path q (List.mem_cons_of_mem _ hq) hFq
        · exact has_cons_iff.2 (.inl rfl)

theorem grows_foldlM_visit (hg : g.Resolved) {rs : List Nat} (hrs : ∀ r ∈ rs, r < g.rules.length)
    (hF : Built g F) (h : rs.foldlM (g.visit g.rules.length []) F = .ok G) :
    Grows g [] F G ∧ ∀ r ∈ rs, G.Has r := by
  induction rs generalizing F with
  | nil =>
    cases h
    exact ⟨.refl hF, by simp⟩
  | cons r rs ih =>
    rw [List.foldlM_cons] at h
    obtain ⟨F', hfirst, h⟩ := bind_eq_ok_iff.1 h
    obtain ⟨hgrows, hhas⟩ := grows_visit hg _ hF (hrs r List.mem_cons_self) hfirst
    obtain ⟨hrest, hothers⟩ := ih (fun q hq => hrs q (List.mem_cons_of_mem _ hq)) hgrows.built h
    refine ⟨hgrows.trans hrest, fun q hq => ?_⟩
    rcases List.mem_cons.1 hq with rfl | hq
    · exact hrest.keeps.has hhas
    · exact hothers q hq

theorem built_firsts (hg : g.Resolved) (h : g.firsts = .ok F) :
    Built g F ∧ ∀ r < g.rules.length, F.Has r := by
  obtain ⟨hgrows, hhas⟩ := grows_foldlM_visit hg (fun r hr => List.mem_range.1 hr) .nil h
  exact ⟨hgrows.built, fun r hr => hhas r (List.mem_range.2 hr)⟩

/-! ## The sets found -/

/-- The set of each rule is the union over its alternatives. -/
theorem get_firsts (hg : g.Resolved) (h : g.firsts = .ok F) (r : Nat) :
    F.get r = F.union (g.alternativesOf r) := by
  obtain ⟨hbuilt, hhas⟩ := built_firsts hg h
  by_cases hr : r < g.rules.length
  · exact (hbuilt.get_eq_and_consults (hhas r hr)).1
  · have hnone : F.lookup r = none := by
      have hnot : ¬ F.Has r := fun h => hr (hbuilt.lt_length h)
      exact Option.not_isSome_iff_eq_none.1 hnot
    have hnil : g.alternativesOf r = [] := by
      unfold alternativesOf
      rw [List.getElem?_eq_none (by omega)]
      rfl
    rw [hnil]
    simp [Firsts.get, hnone, union]

/-- Rules have ranks, up to the number of rules, which decrease from a rule to those with which one
of its alternatives can begin. -/
theorem consults_rank (hg : g.Resolved) (h : g.firsts = .ok F) {r k : Nat}
    {a : Alternative Symbol} (ha : (k, a) ∈ g.alternativesOf r) :
    F.Consults (fun q => F.rank q < F.rank r) a.sequence := by
  obtain ⟨hbuilt, hhas⟩ := built_firsts hg h
  have hr := lt_length_of_mem_alternativesOf ha
  exact ((hbuilt.get_eq_and_consults (hhas r hr)).2 _ ha).mono fun q hq => hq.2

theorem rank_le_length (hg : g.Resolved) (h : g.firsts = .ok F) (r : Nat) :
    F.rank r ≤ g.rules.length :=
  Nat.le_trans (F.rank_le r) (built_firsts hg h).1.length_le

/-! ## Derived strings -/

/-- The set of a run of symbols holds what they derive: they can be empty, or the number of the
first token is in the set. -/
theorem sequence_of_derivation (hg : g.Resolved)
    (hF : ∀ r, F.get r = F.union (g.alternativesOf r)) {ss : List Symbol} (d : Derivation g ss)
    (hss : ∀ s ∈ ss, g.Names s) :
    match d.tokens with
    | [] => (F.sequence ss).nullable = true
    | t :: _ => ∃ id ∈ (F.sequence ss).terminals, g.terminalNumber? t.name = some id := by
  induction d with
  | nil => rfl
  | empty rest ih => exact ih fun s hs => hss s (List.mem_cons_of_mem _ hs)
  | @terminal name id ss t h rest ih =>
    refine ⟨id, SortedSet.mem_singleton.2 rfl, ?_⟩
    rw [h]
    exact hss _ List.mem_cons_self
  | @rule name r ss k a h inner rest ihi ih =>
    specialize ihi (hg.names h)
    specialize ih fun s hs => hss s (List.mem_cons_of_mem _ hs)
    simp only [Derivation.tokens, Firsts.sequence]
    cases hinner : inner.tokens with
    | nil =>
      rw [hinner] at ihi
      have hnull : (F.get r).nullable = true := by
        rw [hF, nullable_union]
        exact ⟨(k, a), h, ihi⟩
      rw [hnull, List.nil_append]
      cases hrest : rest.tokens with
      | nil =>
        rw [hrest] at ih
        exact ih
      | cons t ts =>
        rw [hrest] at ih
        obtain ⟨id, hid, hname⟩ := ih
        exact ⟨id, SortedSet.mem_union.2 (.inr hid), hname⟩
    | cons t ts =>
      rw [hinner] at ihi
      obtain ⟨id, hid, hname⟩ := ihi
      have hfirst : id ∈ (F.get r).terminals := by
        rw [hF, mem_terminals_union]
        exact ⟨(k, a), h, hid⟩
      refine ⟨id, ?_, hname⟩
      split
      · exact SortedSet.mem_union.2 (.inl hfirst)
      · exact hfirst

end RuleSet

end Predictive.Grammar
