import Predictive.Proofs.Paths
import Mathlib.Data.Finset.Powerset

/-!
# The subset construction

`discover` lists every set that the start set leads to, each once, and in any number of rounds that
exceeds the number of sets of states (`discover_spec`). So a walk of the deterministic automaton is
at the state of the set `Nfa.after` of the text read (`walk_ofNfa_eq_some_iff`).
-/

namespace Predictive

/-- Where nothing is listed twice, what is listed has one place. -/
theorem place_unique {α : Type} {l : List α} (h : l.Nodup) {i j : Nat} {a : α} (hi : l[i]? = some a)
    (hj : l[j]? = some a) : i = j :=
  (List.getElem?_inj (List.getElem?_eq_some_iff.1 hi).1 h).1 (hi.trans hj.symm)

namespace Nfa

/-! ## Successors of a set -/

theorem mem_labels_iff {n : Nfa} {set : SortedSet Nat} {l : Label} :
    l ∈ n.labels set ↔ l ≠ .epsilon ∧ ∃ q ∈ set, ∃ r, n.Edge q l r := by
  rw [labels, SortedSet.mem_filter, SortedSet.mem_ofList, List.mem_flatMap, decide_eq_true_eq,
    and_comm]
  refine and_congr_right fun _ => exists_congr fun q => and_congr_right fun _ => ?_
  simp only [List.mem_map, Prod.exists, exists_and_right, exists_eq_right, Edge]

theorem mem_successors_iff {n : Nfa} {set next : SortedSet Nat} {l : Label} :
    (l, next) ∈ n.successors set ↔
      l ∈ n.labels set ∧ next = n.advance set l ∧ next.isEmpty = false := by
  simp only [successors, List.mem_filterMap, ← SortedSet.mem_def]
  constructor
  · rintro ⟨l', hl', heq⟩
    split at heq
    · cases heq
    · next hne =>
      cases heq
      exact ⟨hl', rfl, Bool.eq_false_iff.2 hne⟩
  · rintro ⟨hl, rfl, hne⟩
    exact ⟨l, hl, if_neg (by simp [hne])⟩

/-- A set leads to another by one label. -/
def LeadsTo (n : Nfa) (set next : SortedSet Nat) : Prop := ∃ l, (l, next) ∈ n.successors set

theorem leadsTo_iff_mem {n : Nfa} {set next : SortedSet Nat} :
    n.LeadsTo set next ↔ next ∈ (n.successors set).map Prod.snd := by
  simp [LeadsTo]

/-! ## Discovery -/

theorem register_eq_append (known found : List (SortedSet Nat)) :
    ∃ fresh, register known found = known ++ fresh := by
  induction found generalizing known with
  | nil => exact ⟨[], (List.append_nil _).symm⟩
  | cons set found ih =>
    rw [register, List.foldl_cons, ← register]
    split
    · exact ih known
    · obtain ⟨fresh, h⟩ := ih (known ++ [set])
      exact ⟨set :: fresh, by rw [h, List.append_assoc, List.singleton_append]⟩

theorem mem_register {known found : List (SortedSet Nat)} {set : SortedSet Nat} :
    set ∈ register known found ↔ set ∈ known ∨ set ∈ found := by
  induction found generalizing known with
  | nil => simp [register]
  | cons s found ih =>
    rw [register, List.foldl_cons, ← register, ih, List.mem_cons]
    split
    · next hs =>
      constructor
      · exact Or.imp_right .inr
      · rintro (h | rfl | h)
        exacts [.inl h, .inl hs, .inr h]
    · rw [List.mem_append, List.mem_singleton, or_assoc]

theorem nodup_register {known found : List (SortedSet Nat)} (h : known.Nodup) :
    (register known found).Nodup := by
  induction found generalizing known with
  | nil => exact h
  | cons s found ih =>
    rw [register, List.foldl_cons, ← register]
    split
    · exact ih h
    · next hs =>
      refine ih (List.nodup_append.2 ⟨h, List.nodup_singleton s, ?_⟩)
      rintro a ha b hb rfl
      exact hs (List.mem_singleton.1 hb ▸ ha)

/-- Distinct sets of numbers below `bound` are no more than there are subsets. -/
theorem length_le_of_nodup {bound : Nat} {known : List (SortedSet Nat)} (hnodup : known.Nodup)
    (hlt : ∀ set ∈ known, ∀ q ∈ set, q < bound) : known.length ≤ 2 ^ bound := by
  have hinj : Function.Injective fun set : SortedSet Nat => set.toList.toFinset := by
    intro s t h
    refine SortedSet.ext fun a => ?_
    simpa [SortedSet.mem_def] using Finset.ext_iff.1 h a
  calc known.length = (known.map fun set => set.toList.toFinset).toFinset.card := by
        rw [List.toFinset_card_of_nodup (hnodup.map hinj), List.length_map]
    _ ≤ (Finset.range bound).powerset.card := by
        refine Finset.card_le_card fun s hs => ?_
        obtain ⟨set, hset, rfl⟩ := List.mem_map.1 (List.mem_toFinset.1 hs)
        rw [Finset.mem_powerset]
        intro q hq
        exact Finset.mem_range.2 (hlt set hset q (List.mem_toFinset.1 hq))
    _ = 2 ^ bound := by rw [Finset.card_powerset, Finset.card_range]

/-- What holds of the known sets when some of them are still to be explored: each is there once and
satisfies the invariant `P`, and those explored have all their successors known. -/
structure Explored (n : Nfa) (P : SortedSet Nat → Prop) (work known : List (SortedSet Nat)) :
    Prop where
  nodup : known.Nodup
  holds : ∀ set ∈ known, P set
  work_known : ∀ set ∈ work, set ∈ known
  closed : ∀ set ∈ known, set ∉ work → ∀ next, n.LeadsTo set next → next ∈ known

/-- Exploring a set keeps the invariant. -/
theorem Explored.step {n : Nfa} {P : SortedSet Nat → Prop} {set : SortedSet Nat}
    {work known fresh : List (SortedSet Nat)}
    (hP : ∀ set next, P set → n.LeadsTo set next → P next) (h : n.Explored P (set :: work) known)
    (hfresh : register known ((n.successors set).map Prod.snd) = known ++ fresh) :
    n.Explored P (fresh.reverse ++ work) (known ++ fresh) := by
  have hset := h.work_known set List.mem_cons_self
  have hmem : ∀ s, s ∈ known ++ fresh ↔ s ∈ known ∨ n.LeadsTo set s := fun s => by
    rw [← hfresh, mem_register, leadsTo_iff_mem]
  refine ⟨hfresh ▸ nodup_register h.nodup, fun s hs => ?_, fun s hs => ?_, fun s hs hnot t ht => ?_⟩
  · rcases (hmem s).1 hs with hs | hs
    · exact h.holds s hs
    · exact hP set s (h.holds set hset) hs
  · rcases List.mem_append.1 hs with hs | hs
    · exact List.mem_append_right _ (List.mem_reverse.1 hs)
    · exact List.mem_append_left _ (h.work_known s (List.mem_cons_of_mem _ hs))
  · rw [List.mem_append, List.mem_reverse, not_or] at hnot
    have hs' : s ∈ known := (List.mem_append.1 hs).resolve_right hnot.1
    by_cases hset' : s = set
    · exact (hmem t).2 (.inr (hset' ▸ ht))
    · refine List.mem_append_left _ (h.closed s hs' (fun hcons => ?_) t ht)
      exact (List.mem_cons.1 hcons).elim hset' hnot.2

/-- With a round for every set that is not explored yet, of all sets of states, discovery keeps the
known sets in place and ends with every set explored. -/
theorem discover_spec {n : Nfa} {P : SortedSet Nat → Prop}
    (hP : ∀ set next, P set → n.LeadsTo set next → P next)
    (hlt : ∀ set, P set → ∀ q ∈ set, q < n.size) {rounds : Nat} {work known : List (SortedSet Nat)}
    (h : n.Explored P work known) (hrounds : 2 ^ n.size + work.length ≤ rounds + known.length) :
    known <+: n.discover rounds work known ∧ n.Explored P [] (n.discover rounds work known) := by
  induction rounds generalizing work known with
  | zero =>
    have hle := length_le_of_nodup h.nodup fun set hset => hlt set (h.holds set hset)
    obtain rfl : work = [] := List.length_eq_zero_iff.1 (by omega)
    exact ⟨List.prefix_rfl, h⟩
  | succ rounds ih =>
    cases work with
    | nil => exact ⟨List.prefix_rfl, h⟩
    | cons set work =>
      obtain ⟨fresh, hfresh⟩ := register_eq_append known ((n.successors set).map Prod.snd)
      have hstep := h.step hP hfresh
      rw [discover]
      simp only [hfresh, List.drop_left]
      obtain ⟨hknown, hall⟩ := ih hstep (by
        simp only [List.length_append, List.length_reverse, List.length_cons] at hrounds ⊢
        omega)
      exact ⟨(List.prefix_append known fresh).trans hknown, hall⟩

/-- The states of a set are in the arena. -/
def Within (n : Nfa) (set : SortedSet Nat) : Prop := ∀ q ∈ set, q < n.size

theorem within_startSet {n : Nfa} (hn : n.Bounded) : n.Within n.startSet := by
  intro q hq
  obtain ⟨e, he, hpath⟩ := (mem_startSet_iff hn).1 hq
  exact hn.path_target_lt hpath (hn.entry_lt he)

theorem within_advance {n : Nfa} (hn : n.Bounded) (set : SortedSet Nat) (l : Label) :
    n.Within (n.advance set l) := by
  intro q hq
  obtain ⟨p, hp, hpath⟩ := (mem_closure_iff hn).1 hq
  refine hn.path_target_lt hpath ?_
  obtain ⟨s, -, k, -, hedge⟩ := mem_move_iff.1 hp
  exact hn.target_lt hedge

theorem within_of_leadsTo {n : Nfa} (hn : n.Bounded) {set next : SortedSet Nat}
    (h : n.LeadsTo set next) : n.Within next := by
  obtain ⟨l, hl⟩ := h
  obtain ⟨-, rfl, -⟩ := mem_successors_iff.1 hl
  exact within_advance hn set l

/-- At the start the start set alone is known, and still to be explored. -/
theorem explored_start {n : Nfa} {P : SortedSet Nat → Prop} (hstart : P n.startSet) :
    n.Explored P [n.startSet] [n.startSet] where
  nodup := List.nodup_singleton _
  holds _ hset := List.mem_singleton.1 hset ▸ hstart
  work_known _ hset := hset
  closed _ hset hnot := absurd hset hnot

/-- What holds of the start set and is passed on to successors holds of every listed set, if it keeps
sets within the arena. -/
theorem explored_subsets {n : Nfa} {P : SortedSet Nat → Prop} (hstart : P n.startSet)
    (hP : ∀ set next, P set → n.LeadsTo set next → P next)
    (hlt : ∀ set, P set → ∀ q ∈ set, q < n.size) :
    n.subsets.head? = some n.startSet ∧ n.Explored P [] n.subsets := by
  obtain ⟨⟨rest, hrest⟩, hall⟩ := discover_spec hP hlt (explored_start hstart) (Nat.le_refl _)
  have hsubsets : n.subsets = [n.startSet] ++ rest := hrest.symm
  exact ⟨hsubsets ▸ rfl, hall⟩

theorem subsets_spec {n : Nfa} (hn : n.Bounded) :
    n.subsets.head? = some n.startSet ∧ n.Explored n.Within [] n.subsets :=
  explored_subsets (within_startSet hn) (fun _ _ _ => within_of_leadsTo hn) fun _ h => h

end Nfa

/-! ## Walks of the deterministic automaton -/

namespace Dfa

open Nfa

variable {n : Nfa}

theorem getElem?_ofNfa (n : Nfa) (i : Nat) :
    (ofNfa n).states[i]? = n.subsets[i]?.map fun set =>
      { members := set
        owners := n.ownersOf set
        edges := (n.successors set).map fun e => (e.1, n.subsets.idxOf e.2) } := by
  simp [ofNfa]

/-- Looking up a label among pairs made from a list of labels. -/
theorem lookup_filterMap {β γ : Type} (labels : List Label) (g : Label → Option β) (f : β → γ)
    (l : Label) :
    ((labels.filterMap fun l => (g l).map fun b => (l, b)).map fun e => (e.1, f e.2)).lookup l =
      if l ∈ labels then (g l).map f else none := by
  induction labels with
  | nil => rfl
  | cons k labels ih =>
    cases hk : g k with
    | none =>
      rw [List.filterMap_cons_none (by rw [hk]; rfl), ih]
      by_cases hlk : l = k
      · subst hlk
        simp [hk]
      · simp [hlk]
    | some b =>
      rw [List.filterMap_cons_some (by rw [hk]; rfl), List.map_cons, List.lookup_cons]
      by_cases hlk : l = k
      · subst hlk
        simp [hk]
      · simp [hlk, beq_false_of_ne hlk, ih]

/-- The set that a label leads to, if it has members. -/
def target? (n : Nfa) (set : SortedSet Nat) (l : Label) : Option (SortedSet Nat) :=
  if (n.advance set l).isEmpty then none else some (n.advance set l)

theorem lookup_successors (n : Nfa) (set : SortedSet Nat) (l : Label) :
    ((n.successors set).map fun e => (e.1, n.subsets.idxOf e.2)).lookup l =
      if l ∈ n.labels set then (target? n set l).map n.subsets.idxOf else none := by
  refine Eq.trans ?_ (lookup_filterMap (n.labels set).toList (target? n set) n.subsets.idxOf l)
  congr 2
  rw [successors]
  congr 1
  funext k
  rw [target?]
  dsimp only
  split <;> rfl

/-- Without an edge for a character, reading it is taking the edges for any character. -/
theorem advance_char_eq_any {set : SortedSet Nat} {c : Char} (h : .char c ∉ n.labels set) :
    n.advance set (.char c) = n.advance set .any := by
  rw [advance, advance]
  congr 1
  refine SortedSet.ext fun r => ?_
  rw [mem_move_char, mem_move_any]
  refine exists_congr fun q => and_congr_right fun hq => ?_
  constructor
  · rintro ⟨l, rfl | rfl, hedge⟩
    · exact hedge
    · exact absurd (mem_labels_iff.2 ⟨by simp, q, hq, r, hedge⟩) h
  · exact fun hedge => ⟨.any, .inl rfl, hedge⟩

/-- A label on an edge from a set leads to a set with members. -/
theorem advance_ne_empty (hn : n.Bounded) {set : SortedSet Nat} {l : Label}
    (h : l ∈ n.labels set) : (n.advance set l).isEmpty = false := by
  obtain ⟨-, q, hq, r, hedge⟩ := mem_labels_iff.1 h
  rw [SortedSet.isEmpty_eq_false_iff]
  exact ⟨r, (mem_closure_iff hn).2 ⟨r, mem_move_iff.2 ⟨q, hq, l, .inl rfl, hedge⟩, .refl r⟩⟩

/-- Without an edge for any character there is no move on any character. -/
theorem advance_any_eq_empty (hn : n.Bounded) {set : SortedSet Nat}
    (h : .any ∉ n.labels set) : (n.advance set .any).isEmpty = true := by
  rw [SortedSet.isEmpty_iff, SortedSet.eq_empty_iff]
  intro r hr
  obtain ⟨s, hs, -⟩ := (mem_closure_iff hn).1 hr
  obtain ⟨q, hq, hedge⟩ := mem_move_any.1 hs
  exact h (mem_labels_iff.2 ⟨by simp, q, hq, s, hedge⟩)

/-- The edge taken on a character leads to the set reached by reading it. The edge for any character
is taken only where no state of the set has one for the character, and otherwise its targets are
among those of the character's own edge. -/
theorem step_ofNfa (hn : n.Bounded) {i : Nat} {set : SortedSet Nat}
    (hi : n.subsets[i]? = some set) (c : Char) :
    (ofNfa n).step i c = (target? n set (.char c)).map n.subsets.idxOf := by
  rw [step, getElem?_ofNfa, hi]
  show Option.or (List.lookup _ _) (List.lookup _ _) = _
  rw [lookup_successors, lookup_successors]
  by_cases hc : .char c ∈ n.labels set
  · have hne := advance_ne_empty hn hc
    simp [hc, target?, hne]
  · rw [if_neg hc, Option.none_or]
    have heq := advance_char_eq_any hc
    by_cases hany : .any ∈ n.labels set
    · rw [if_pos hany, target?, target?, heq]
    · rw [if_neg hany, target?, heq, if_pos (advance_any_eq_empty hn hany)]
      rfl

theorem walk_concat (d : Dfa) (id : Nat) (cs : List Char) (c : Char) :
    d.walk id (cs ++ [c]) = (d.walk id cs).bind fun next => d.step next c := by
  rw [walk, List.foldlM_append]
  show (cs.foldlM d.step id).bind _ = _
  rw [← walk]
  congr 1
  funext next
  show (d.step next c).bind some = _
  exact Option.bind_fun_some _

/-- What a listed set leads to by reading a character is listed, if it has members. -/
theorem advance_mem_subsets (hn : n.Bounded) {set : SortedSet Nat} (hset : set ∈ n.subsets)
    {c : Char} (hne : (n.advance set (.char c)).isEmpty = false) :
    n.advance set (.char c) ∈ n.subsets := by
  have hclosed := (subsets_spec hn).2.closed set hset List.not_mem_nil
  by_cases hc : .char c ∈ n.labels set
  · exact hclosed _ ⟨_, mem_successors_iff.2 ⟨hc, rfl, hne⟩⟩
  · rw [advance_char_eq_any hc] at hne ⊢
    refine hclosed _ ⟨.any, mem_successors_iff.2 ⟨?_, rfl, hne⟩⟩
    by_contra hany
    rw [advance_any_eq_empty hn hany] at hne
    cases hne

/-- A text whose extension leads somewhere leads somewhere itself. -/
theorem after_ne_empty_of_concat (hn : n.Bounded) {cs : List Char} {c : Char}
    (h : (n.after (cs ++ [c])).isEmpty = false) : (n.after cs).isEmpty = false := by
  rw [SortedSet.isEmpty_eq_false_iff] at h ⊢
  obtain ⟨r, hr⟩ := h
  rw [after_concat, mem_advance_char hn] at hr
  obtain ⟨q, hq, -⟩ := hr
  exact ⟨q, hq⟩

theorem after_mem_subsets (hn : n.Bounded) {cs : List Char}
    (h : cs = [] ∨ (n.after cs).isEmpty = false) : n.after cs ∈ n.subsets := by
  induction cs using List.reverseRecOn with
  | nil => exact List.mem_of_mem_head? (subsets_spec hn).1
  | append_singleton cs c ih =>
    have hne := h.resolve_left (by simp)
    have hmem := ih (.inr (after_ne_empty_of_concat hn hne))
    rw [after_concat] at hne ⊢
    exact advance_mem_subsets hn hmem hne

/-- A walk is at the state of the set reached by the text, as long as that set has members. -/
theorem walk_ofNfa_eq_some_iff (hn : n.Bounded) {cs : List Char} {id : Nat} :
    (ofNfa n).walk 0 cs = some id ↔
      (cs = [] ∨ (n.after cs).isEmpty = false) ∧ n.subsets[id]? = some (n.after cs) := by
  obtain ⟨hstart, hspec⟩ := subsets_spec hn
  induction cs using List.reverseRecOn generalizing id with
  | nil =>
    rw [List.head?_eq_getElem?] at hstart
    constructor
    · intro h
      obtain rfl : 0 = id := Option.some.inj h
      exact ⟨.inl rfl, hstart⟩
    · rintro ⟨-, h⟩
      exact congrArg some (place_unique hspec.nodup hstart h)
  | append_singleton cs c ih =>
    rw [walk_concat, Option.bind_eq_some_iff]
    constructor
    · rintro ⟨i, hi, hstep⟩
      obtain ⟨-, hset⟩ := ih.1 hi
      rw [step_ofNfa hn hset, Option.map_eq_some_iff] at hstep
      obtain ⟨next, hnext, rfl⟩ := hstep
      rw [target?, ← after_concat] at hnext
      split at hnext
      · cases hnext
      · next hne =>
        obtain rfl := Option.some.inj hnext
        have hne' := Bool.eq_false_iff.2 hne
        exact ⟨.inr hne', List.getElem?_idxOf (after_mem_subsets hn (.inr hne'))⟩
    · rintro ⟨hor, hid⟩
      have hne := hor.resolve_left (by simp)
      have hcs := after_ne_empty_of_concat hn hne
      have hset := List.getElem?_idxOf (after_mem_subsets hn (.inr hcs))
      refine ⟨_, ih.2 ⟨.inr hcs, hset⟩, ?_⟩
      rw [step_ofNfa hn hset, target?, ← after_concat, hne]
      exact congrArg some
        (place_unique hspec.nodup (List.getElem?_idxOf (after_mem_subsets hn (.inr hne))) hid)

end Dfa

end Predictive
