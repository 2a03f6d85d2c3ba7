import Predictive.Proofs.FirstSets
import Predictive.Proofs.FollowSets
import Mathlib.Data.Finset.Union

/-!
# FOLLOW sets by repeated passes

Another way to the FOLLOW sets: pass over all alternatives from right to left, add to the set of each
rule what can come after it at that place, and pass again as long as a set has grown
(`FollowLoop`). The sets grow in place, so a pass may already read what it has added. A pass
stays within the FOLLOW sets (`within_followPass`), and sets that it leaves as they are solve their
equations (`closed_of_followPass`). So the passes come to an end, and find the FOLLOW sets
(`followLoop_iff`).
-/

namespace Predictive.Grammar

open Relation (ReflTransGen)

/-! ## A pass -/

/-- The FOLLOW sets in the course of a pass. -/
structure FollowPass where
  /-- The sets by rule. -/
  sets : List (SortedSet Nat)
  /-- A set has grown. -/
  changed : Bool := false

namespace FollowPass

/-- The set of a rule. -/
def get (s : FollowPass) (rule : Nat) : SortedSet Nat := s.sets[rule]?.getD ∅

/-- Adds terminals to the set of a rule. -/
def extend (s : FollowPass) (rule : Nat) (terminals : SortedSet Nat) : FollowPass :=
  let grown := s.get rule ∪ terminals
  { sets := s.sets.set rule grown
    changed := s.changed || decide ((s.get rule).size < grown.size) }

/-- Passes over a symbol, where `trail` holds what can come after it. -/
def symbol (F : Firsts) : Symbol → FollowPass × SortedSet Nat → FollowPass × SortedSet Nat
  | .empty, (s, trail) => (s, trail)
  | .terminal _ t, (s, _) => (s, .singleton t)
  | .rule _ r, (s, trail) =>
    let first := F.get r
    (s.extend r trail, if first.nullable then trail ∪ first.terminals else first.terminals)

/-- Passes over an alternative of a rule from right to left. What the set of the rule holds before
comes after the last symbol. -/
def alternative (F : Firsts) (s : FollowPass) (owner : Nat) (ss : List Symbol) : FollowPass :=
  (ss.foldr (symbol F) (s, s.get owner)).1

end FollowPass

namespace RuleSet

variable {g : RuleSet}

/-- The symbols of all alternatives, each with the rule of the alternative. -/
def sequences (g : RuleSet) : List (Nat × List Symbol) :=
  g.rules.zipIdx.flatMap fun (rule, owner) => rule.alternatives.map fun a => (owner, a.2.sequence)

/-- Passes over all alternatives. -/
def followPass (g : RuleSet) (F : Firsts) (sets : List (SortedSet Nat)) : FollowPass :=
  g.sequences.foldl (fun s (owner, ss) => s.alternative F owner ss) { sets }

/-- The sets before the first pass: the end of the input comes after the start. -/
def followStart (g : RuleSet) : List (SortedSet Nat) :=
  (List.range g.rules.length).map fun rule => if rule = 0 then .singleton 0 else ∅

/-- The passes over the alternatives lead from some sets to others, and end there, since the last one
changes nothing. -/
inductive FollowLoop (g : RuleSet) (F : Firsts) :
    List (SortedSet Nat) → List (SortedSet Nat) → Prop
  | stop {sets : List (SortedSet Nat)} : (g.followPass F sets).changed = false →
      FollowLoop g F sets (g.followPass F sets).sets
  | again {sets final : List (SortedSet Nat)} : (g.followPass F sets).changed = true →
      FollowLoop g F (g.followPass F sets).sets final → FollowLoop g F sets final

theorem mem_sequences_iff {owner : Nat} {ss : List Symbol} :
    (owner, ss) ∈ g.sequences ↔ ∃ k a, (k, a) ∈ g.alternativesOf owner ∧ a.sequence = ss := by
  unfold sequences
  simp only [mem_alternativesOf_iff, List.mem_flatMap, List.mem_map]
  constructor
  · rintro ⟨⟨rule, r⟩, hrule, ⟨k, a⟩, ha, heq⟩
    obtain ⟨rfl, hseq⟩ := Prod.mk.inj heq
    exact ⟨k, a, ⟨rule, hrule, ha⟩, hseq⟩
  · rintro ⟨k, a, ⟨rule, hrule, ha⟩, rfl⟩
    exact ⟨(rule, owner), hrule, (k, a), ha, rfl⟩

theorem mem_occurrences_of_sequences {owner r : Nat} {before after : List Symbol}
    {name : String} (h : (owner, before ++ .rule name r :: after) ∈ g.sequences) :
    ⟨owner, r, after⟩ ∈ g.occurrences := by
  obtain ⟨k, a, ha, hseq⟩ := mem_sequences_iff.1 h
  exact mem_occurrences_iff.2 ⟨k, a, ha, before, name, hseq⟩

end RuleSet

namespace FollowPass

variable {F : Firsts} {s s' s'' : FollowPass} {r x : Nat} {trail : SortedSet Nat} {ss : List Symbol}

/-! ## What passing adds -/

/-- What comes after the place where a pass stands: what the symbols from there on begin with and, if
they can be empty, what comes after them. -/
theorem mem_trail_iff : x ∈ (ss.foldr (symbol F) (s, trail)).2 ↔
    x ∈ (F.sequence ss).terminals ∨ (F.sequence ss).nullable = true ∧ x ∈ trail := by
  induction ss with
  | nil => simp [Firsts.sequence]
  | cons symbol ss ih =>
    cases symbol with
    | empty => exact ih
    | terminal name t => simp [FollowPass.symbol, Firsts.sequence]
    | rule name r =>
      simp only [List.foldr_cons, FollowPass.symbol, Firsts.sequence]
      by_cases hnull : (F.get r).nullable = true
      · simp only [hnull, if_true, SortedSet.mem_union, ih]
        tauto
      · simp [hnull]

theorem mem_get_extend (hr : r < s.sets.length) {q : Nat} :
    x ∈ (s.extend r trail).get q ↔ x ∈ s.get q ∨ q = r ∧ x ∈ trail := by
  unfold extend get
  dsimp only
  rw [List.getElem?_set]
  split
  · next heq =>
    subst heq
    simp [hr]
  · next hne => simp [Ne.symm hne]

/-- Passing keeps what the sets hold. It has changed something exactly if some set holds more. -/
structure Grows (s s' : FollowPass) : Prop where
  length : s'.sets.length = s.sets.length
  keeps : ∀ r x, x ∈ s.get r → x ∈ s'.get r
  eq_of_unchanged : s'.changed = false → s' = s
  new_of_changed : s'.changed = true → s.changed = true ∨
    ∃ r < s.sets.length, ∃ x ∈ s'.get r, ¬ x ∈ s.get r

theorem Grows.refl (s : FollowPass) : Grows s s :=
  ⟨rfl, fun _ _ hx => hx, fun _ => rfl, .inl⟩

theorem Grows.trans (h : Grows s s') (h' : Grows s' s'') : Grows s s'' where
  length := h'.length.trans h.length
  keeps r x hx := h'.keeps r x (h.keeps r x hx)
  eq_of_unchanged hchanged := by
    obtain rfl := h'.eq_of_unchanged hchanged
    exact h.eq_of_unchanged hchanged
  new_of_changed hchanged := by
    rcases h'.new_of_changed hchanged with hchanged | ⟨r, hr, x, hx, hnew⟩
    · refine (h.new_of_changed hchanged).imp_right ?_
      rintro ⟨r, hr, x, hx, hnew⟩
      exact ⟨r, hr, x, h'.keeps r x hx, hnew⟩
    · exact .inr ⟨r, h.length ▸ hr, x, hx, fun hs => hnew (h.keeps r x hs)⟩

/-- Where nothing has changed, there was nothing to add. -/
theorem subset_of_unchanged (h : (s.extend r trail).changed = false) : ∀ x ∈ trail, x ∈ s.get r := by
  unfold extend at h
  dsimp only at h
  rw [Bool.or_eq_false_iff, decide_eq_false_iff_not, SortedSet.size_lt_size_union_iff] at h
  intro x hx
  by_contra hs
  exact h.2 ⟨x, hx, hs⟩

theorem grows_extend (hr : r < s.sets.length) : Grows s (s.extend r trail) where
  length := List.length_set ..
  keeps q x hx := (mem_get_extend hr).2 (.inl hx)
  eq_of_unchanged hchanged := by
    have hsame : s.get r ∪ trail = s.get r := SortedSet.ext fun x => by
      rw [SortedSet.mem_union]
      exact or_iff_left_of_imp (subset_of_unchanged hchanged x)
    obtain ⟨sets, changed⟩ := s
    unfold extend at hchanged ⊢
    rw [hsame] at hchanged ⊢
    simp only [Nat.lt_irrefl, decide_false, Bool.or_false] at hchanged ⊢
    have hget : get ⟨sets, changed⟩ r = sets[r] := by
      unfold get
      rw [List.getElem?_eq_getElem hr]
      rfl
    rw [hget, List.set_getElem_self]
  new_of_changed hchanged := by
    unfold extend at hchanged
    dsimp only at hchanged
    rw [Bool.or_eq_true, decide_eq_true_eq, SortedSet.size_lt_size_union_iff] at hchanged
    refine hchanged.imp_right ?_
    rintro ⟨x, hx, hnew⟩
    exact ⟨r, hr, x, (mem_get_extend hr).2 (.inr ⟨rfl, hx⟩), hnew⟩

/-! ## Passing over an alternative -/

/-- The rules among the symbols have sets. -/
def Knows (s : FollowPass) (ss : List Symbol) : Prop := ∀ name r, .rule name r ∈ ss → r < s.sets.length

theorem grows_symbol {symbol : Symbol} {p : FollowPass × SortedSet Nat}
    (h : ∀ name r, symbol = .rule name r → r < p.1.sets.length) :
    Grows p.1 (FollowPass.symbol F symbol p).1 := by
  cases symbol with
  | empty => exact .refl _
  | terminal name t => exact .refl _
  | rule name r => exact grows_extend (h name r rfl)

theorem grows_foldr (h : s.Knows ss) : Grows s (ss.foldr (symbol F) (s, trail)).1 := by
  induction ss with
  | nil => exact .refl s
  | cons symbol ss ih =>
    have hrest := ih fun name r hr => h name r (List.mem_cons_of_mem _ hr)
    refine hrest.trans (grows_symbol fun name r hr => ?_)
    rw [hrest.length]
    exact h name r (hr ▸ List.mem_cons_self)

/-- Where passing over symbols has changed nothing, each rule among them has in its set what comes
after it. -/
theorem closed_of_foldr (h : s.Knows ss)
    (hchanged : (ss.foldr (symbol F) (s, trail)).1.changed = false) {before after : List Symbol}
    {name : String} (hss : ss = before ++ .rule name r :: after)
    (hx : x ∈ (F.sequence after).terminals ∨ (F.sequence after).nullable = true ∧ x ∈ trail) :
    x ∈ s.get r := by
  induction ss generalizing before with
  | nil => simp at hss
  | cons symbol ss ih =>
    have htail : s.Knows ss := fun name r hr => h name r (List.mem_cons_of_mem _ hr)
    have hrest : Grows s (ss.foldr (FollowPass.symbol F) (s, trail)).1 := grows_foldr htail
    have hhead : Grows (ss.foldr (FollowPass.symbol F) (s, trail)).1
        (FollowPass.symbol F symbol (ss.foldr (FollowPass.symbol F) (s, trail))).1 :=
      grows_symbol fun name r hr => by
        rw [hrest.length]
        exact h name r (hr ▸ List.mem_cons_self)
    have hbefore : (ss.foldr (FollowPass.symbol F) (s, trail)).1.changed = false :=
      hhead.eq_of_unchanged hchanged ▸ hchanged
    cases before with
    | cons _ before => exact ih htail hbefore (List.cons.inj hss).2
    | nil =>
      obtain ⟨rfl, rfl⟩ := List.cons.inj hss
      rw [← mem_trail_iff (s := s)] at hx
      rw [← hrest.eq_of_unchanged hbefore]
      exact subset_of_unchanged hchanged x hx

theorem grows_alternative (h : s.Knows ss) (owner : Nat) : Grows s (s.alternative F owner ss) :=
  grows_foldr h

/-! ## Passing over all alternatives -/

variable {g : RuleSet}

/-- The sets hold nothing but what is in the FOLLOW sets. -/
def Within (g : RuleSet) (F : Firsts) (s : FollowPass) : Prop :=
  ∀ r x, x ∈ s.get r → x ∈ g.followOf F g.occurrences r

theorem within_foldr {owner : Nat} {before : List Symbol} (hs : s.Within g F) (h : s.Knows ss)
    (htrail : ∀ x ∈ trail, x ∈ g.followOf F g.occurrences owner)
    (hmem : (owner, before ++ ss) ∈ g.sequences) :
    (ss.foldr (symbol F) (s, trail)).1.Within g F := by
  induction ss generalizing before with
  | nil => exact hs
  | cons symbol ss ih =>
    have htail : s.Knows ss := fun name r hr => h name r (List.mem_cons_of_mem _ hr)
    have hmem' : (owner, (before ++ [symbol]) ++ ss) ∈ g.sequences := by simpa using hmem
    have hrest := ih htail hmem'
    cases symbol with
    | empty => exact hrest
    | terminal name t => exact hrest
    | rule name r =>
      have hgrows : Grows s (ss.foldr (FollowPass.symbol F) (s, trail)).1 := grows_foldr htail
      have hr : r < (ss.foldr (FollowPass.symbol F) (s, trail)).1.sets.length := by
        rw [hgrows.length]
        exact h name r List.mem_cons_self
      intro q x hx
      rcases (mem_get_extend hr).1 hx with hold | ⟨rfl, hadded⟩
      · exact hrest q x hold
      · have hplace := RuleSet.mem_occurrences_of_sequences hmem
        rcases mem_trail_iff.1 hadded with hfirst | ⟨hnull, hafter⟩
        · exact RuleSet.mem_followOf_of_first hplace hfirst
        · exact RuleSet.mem_followOf_of_follow hplace hnull (htrail x hafter)

theorem Grows.knows (h : Grows s s') (hs : s.Knows ss) : s'.Knows ss := by
  intro name r hr
  rw [h.length]
  exact hs name r hr

theorem grows_foldl {all : List (Nat × List Symbol)} (h : ∀ p ∈ all, s.Knows p.2) :
    Grows s (all.foldl (fun s (owner, ss) => s.alternative F owner ss) s) := by
  induction all generalizing s with
  | nil => exact .refl s
  | cons p all ih =>
    have hfirst : Grows s (s.alternative F p.1 p.2) := grows_alternative (h p List.mem_cons_self) p.1
    exact hfirst.trans (ih fun q hq => hfirst.knows (h q (List.mem_cons_of_mem _ hq)))

theorem within_foldl {all : List (Nat × List Symbol)} (hs : s.Within g F)
    (h : ∀ p ∈ all, s.Knows p.2) (hall : ∀ p ∈ all, p ∈ g.sequences) :
    (all.foldl (fun s (owner, ss) => s.alternative F owner ss) s).Within g F := by
  induction all generalizing s with
  | nil => exact hs
  | cons p all ih =>
    have hp := h p List.mem_cons_self
    have hfirst : Grows s (s.alternative F p.1 p.2) := grows_alternative hp p.1
    refine ih ?_ (fun q hq => hfirst.knows (h q (List.mem_cons_of_mem _ hq)))
      fun q hq => hall q (List.mem_cons_of_mem _ hq)
    have hmem : (p.1, [] ++ p.2) ∈ g.sequences := hall p List.mem_cons_self
    exact within_foldr hs hp (hs p.1) hmem

/-- Where passing over all alternatives has changed nothing, it has changed nothing at each. -/
theorem unchanged_of_foldl {all : List (Nat × List Symbol)} (h : ∀ p ∈ all, s.Knows p.2)
    (hchanged : (all.foldl (fun s (owner, ss) => s.alternative F owner ss) s).changed = false) :
    ∀ p ∈ all, (s.alternative F p.1 p.2).changed = false := by
  induction all generalizing s with
  | nil => exact fun p hp => absurd hp List.not_mem_nil
  | cons p all ih =>
    have hfirst : Grows s (s.alternative F p.1 p.2) := grows_alternative (h p List.mem_cons_self) p.1
    have hknows : ∀ q ∈ all, (s.alternative F p.1 p.2).Knows q.2 := fun q hq =>
      hfirst.knows (h q (List.mem_cons_of_mem _ hq))
    have hrest := grows_foldl (F := F) hknows
    have hunchanged : (s.alternative F p.1 p.2).changed = false :=
      hrest.eq_of_unchanged hchanged ▸ hchanged
    have hsame := hfirst.eq_of_unchanged hunchanged
    refine List.forall_mem_cons.2 ⟨hunchanged, fun q hq => ?_⟩
    have hq' := ih hknows hchanged q hq
    rwa [hsame] at hq'

end FollowPass

/-! ## The loop -/

namespace RuleSet

variable {g : RuleSet} {F : Firsts} {sets final : List (SortedSet Nat)} {r x : Nat}

theorem knows_sequences (hg : g.Resolved) (hlength : sets.length = g.rules.length) :
    ∀ p ∈ g.sequences, FollowPass.Knows { sets } p.2 := by
  rintro ⟨owner, ss⟩ hp name r hr
  obtain ⟨k, a, ha, rfl⟩ := mem_sequences_iff.1 hp
  show r < sets.length
  rw [hlength]
  exact hg.inRange ha name r hr

theorem grows_followPass (hg : g.Resolved) (hlength : sets.length = g.rules.length) :
    FollowPass.Grows { sets } (g.followPass F sets) :=
  FollowPass.grows_foldl (knows_sequences hg hlength)

theorem within_followPass (hg : g.Resolved) (hlength : sets.length = g.rules.length)
    (h : FollowPass.Within g F { sets }) : (g.followPass F sets).Within g F :=
  FollowPass.within_foldl h (knows_sequences hg hlength) fun _ hp => hp

/-- Sets that a pass leaves as they are solve their equations. -/
theorem closed_of_followPass (hg : g.Resolved) (hlength : sets.length = g.rules.length)
    (h : (g.followPass F sets).changed = false) {o : Occurrence} (ho : o ∈ g.occurrences)
    (hx : x ∈ (F.sequence o.after).terminals ∨ (F.sequence o.after).nullable = true ∧
      x ∈ FollowPass.get { sets } o.owner) : x ∈ FollowPass.get { sets } o.rule := by
  obtain ⟨k, a, ha, before, name, hseq⟩ := mem_occurrences_iff.1 ho
  have hmem : (o.owner, a.sequence) ∈ g.sequences := mem_sequences_iff.2 ⟨k, a, ha, rfl⟩
  have hknows := knows_sequences hg hlength
  have hunchanged := FollowPass.unchanged_of_foldl hknows h _ hmem
  exact FollowPass.closed_of_foldr (hknows _ hmem) hunchanged hseq hx

theorem length_followStart : g.followStart.length = g.rules.length := by
  simp [followStart]

theorem mem_get_followStart_iff :
    x ∈ FollowPass.get { sets := g.followStart } r ↔ (r = 0 ∧ x = 0) ∧ r < g.rules.length := by
  unfold FollowPass.get followStart
  by_cases hr : r < g.rules.length
  · by_cases hzero : r = 0
    · simp [hzero, hzero ▸ hr]
    · simp [hr, hzero]
  · simp [hr]

theorem mem_get_follows_iff : x ∈ FollowPass.get { sets := g.follows F } r ↔
    r < g.rules.length ∧ x ∈ g.followOf F g.occurrences r := by
  unfold FollowPass.get follows
  by_cases hr : r < g.rules.length <;> simp [hr]

/-- Sets that a pass leaves as they are hold all that is in the FOLLOW sets. -/
theorem mem_get_of_mem_followOf (hg : g.Resolved) (hlength : sets.length = g.rules.length)
    (h : (g.followPass F sets).changed = false)
    (hstart : ∀ r x, x ∈ FollowPass.get { sets := g.followStart } r → x ∈ FollowPass.get { sets } r)
    (hr : r < g.rules.length) (hx : x ∈ g.followOf F g.occurrences r) :
    x ∈ FollowPass.get { sets } r := by
  obtain ⟨q, hpath, hdirect⟩ := mem_followOf_iff.1 hx
  clear hx
  induction hpath using ReflTransGen.head_induction_on with
  | refl =>
    rcases mem_directFollow_iff.1 hdirect with ⟨rfl, rfl⟩ | ⟨o, ho, rfl, hfirst⟩
    · exact hstart 0 0 (mem_get_followStart_iff.2 ⟨⟨rfl, rfl⟩, hr⟩)
    · exact closed_of_followPass hg hlength h ho (.inl hfirst)
  | head hedge _ ih =>
    obtain ⟨o, ho, rfl, rfl, hnull⟩ := mem_inheritsFrom_iff.1 hedge
    exact closed_of_followPass hg hlength h ho (.inr ⟨hnull, ih (owner_lt_length ho)⟩)

/-- What the passes keep: the sets hold what they held at first, and nothing but what is in the FOLLOW
sets. -/
structure Between (g : RuleSet) (F : Firsts) (sets : List (SortedSet Nat)) : Prop where
  length : sets.length = g.rules.length
  start : ∀ r x, x ∈ FollowPass.get { sets := g.followStart } r → x ∈ FollowPass.get { sets } r
  within : FollowPass.Within g F { sets }

theorem between_followStart : g.Between F g.followStart where
  length := length_followStart
  start _ _ hx := hx
  within r x hx := by
    obtain ⟨⟨rfl, rfl⟩, -⟩ := mem_get_followStart_iff.1 hx
    exact zero_mem_followOf

theorem Between.followPass (hg : g.Resolved) (h : g.Between F sets) :
    g.Between F (g.followPass F sets).sets where
  length := (grows_followPass hg h.length).length.trans h.length
  start r x hx := (grows_followPass hg h.length).keeps r x (h.start r x hx)
  within := within_followPass hg h.length h.within

/-- Where a pass changes nothing, the sets are the FOLLOW sets. -/
theorem Between.eq_follows (hg : g.Resolved) (h : g.Between F sets)
    (hchanged : (g.followPass F sets).changed = false) :
    (g.followPass F sets).sets = g.follows F := by
  have hsame : (g.followPass F sets).sets = sets :=
    congrArg FollowPass.sets ((grows_followPass hg h.length).eq_of_unchanged hchanged)
  have hlength : (g.follows F).length = g.rules.length := by simp [follows]
  rw [hsame]
  refine List.ext_getElem (h.length.trans hlength.symm) fun r hr hr' => SortedSet.ext fun x => ?_
  have hget {sets : List (SortedSet Nat)} (hr : r < sets.length) :
      FollowPass.get { sets } r = sets[r] := by
    unfold FollowPass.get
    rw [List.getElem?_eq_getElem hr]
    rfl
  rw [← hget hr, ← hget hr', mem_get_follows_iff]
  have hlt : r < g.rules.length := h.length ▸ hr
  exact ⟨fun hx => ⟨hlt, h.within r x hx⟩,
    fun hx => mem_get_of_mem_followOf hg h.length hchanged h.start hlt hx.2⟩

/-- What the FOLLOW sets hold, and other sets lack. -/
def missing (g : RuleSet) (F : Firsts) (sets : List (SortedSet Nat)) : Finset (Nat × Nat) :=
  (Finset.range g.rules.length).biUnion fun r =>
    ((g.followOf F g.occurrences r).toList.toFinset.filter
      (· ∉ FollowPass.get { sets } r)).image (r, ·)

theorem mem_missing_iff : (r, x) ∈ g.missing F sets ↔ r < g.rules.length ∧
    x ∈ g.followOf F g.occurrences r ∧ ¬ x ∈ FollowPass.get { sets } r := by
  simp [missing, SortedSet.mem_def]

/-- A pass that changes something leaves less missing. -/
theorem Between.card_missing_lt (hg : g.Resolved) (h : g.Between F sets)
    (hchanged : (g.followPass F sets).changed = true) :
    (g.missing F (g.followPass F sets).sets).card < (g.missing F sets).card := by
  have hgrows := grows_followPass (F := F) hg h.length
  obtain ⟨r, hr, x, hx, hnew⟩ := (hgrows.new_of_changed hchanged).resolve_left Bool.false_ne_true
  have hlt : r < g.rules.length := h.length ▸ hr
  have hmissing : (r, x) ∈ g.missing F sets :=
    mem_missing_iff.2 ⟨hlt, (h.followPass hg).within r x hx, hnew⟩
  have hsub : g.missing F (g.followPass F sets).sets ⊆ g.missing F sets := by
    rintro ⟨q, y⟩ hy
    obtain ⟨hq, hfollow, hlacks⟩ := mem_missing_iff.1 hy
    exact mem_missing_iff.2 ⟨hq, hfollow, fun hy => hlacks (hgrows.keeps q y hy)⟩
  exact Finset.card_lt_card ⟨hsub, fun hsup => (mem_missing_iff.1 (hsup hmissing)).2.2 hx⟩

theorem Between.followLoop (hg : g.Resolved) (h : g.Between F sets) :
    g.FollowLoop F sets (g.follows F) := by
  obtain ⟨n, hn⟩ : ∃ n, (g.missing F sets).card = n := ⟨_, rfl⟩
  induction n using Nat.strong_induction_on generalizing sets with
  | _ n ih =>
    cases hchanged : (g.followPass F sets).changed with
    | false =>
      rw [← h.eq_follows hg hchanged]
      exact .stop hchanged
    | true =>
      have hlt := h.card_missing_lt hg hchanged
      exact .again hchanged (ih _ (hn ▸ hlt) (h.followPass hg) rfl)

/-- The passes can end in one way only. -/
theorem FollowLoop.unique {final' : List (SortedSet Nat)} (h : g.FollowLoop F sets final)
    (h' : g.FollowLoop F sets final') : final = final' := by
  induction h with
  | stop hchanged =>
    cases h' with
    | stop => rfl
    | again hchanged' => exact absurd (hchanged.symm.trans hchanged') Bool.false_ne_true
  | again hchanged _ ih =>
    cases h' with
    | stop hchanged' => exact absurd (hchanged'.symm.trans hchanged) Bool.false_ne_true
    | again _ h' => exact ih h'

/-- The passes come to an end, and then have found the FOLLOW sets. -/
theorem followLoop_iff (hg : g.Resolved) :
    g.FollowLoop F g.followStart final ↔ final = g.follows F := by
  have hloop : g.FollowLoop F g.followStart (g.follows F) := between_followStart.followLoop hg
  exact ⟨fun h => h.unique hloop, fun h => h ▸ hloop⟩

end RuleSet

end Predictive.Grammar
