import Predictive.Proofs.FirstSets

/-!
# FIRST sets are exact

What a run of symbols derives can begin with a terminal (`RuleSet.Begins`) or be empty
(`RuleSet.Vanishes`). Sets that are found so far hold only such terminals (`Built.sound`), and once
all are found, they hold all of them (`mem_terminals_iff`, `nullable_iff`): a production leaves what
the set of a run of symbols holds.
-/

namespace Predictive.Grammar

namespace RuleSet

variable {g : RuleSet} {ss ts : List Symbol} {t : Nat}

/-- Some form derived from the symbols begins with terminal `t`. -/
def Begins (g : RuleSet) (ss : List Symbol) (t : Nat) : Prop :=
  ∃ name rest, g.terminalNumber? name = some t ∧ g.cfg.Derives (form ss) (.terminal name :: rest)

/-- The symbols derive the empty string. -/
def Vanishes (g : RuleSet) (ss : List Symbol) : Prop := g.cfg.Derives (form ss) []

theorem Vanishes.append (hs : g.Vanishes ss) (ht : g.Vanishes ts) : g.Vanishes (ss ++ ts) := by
  unfold Vanishes
  rw [form_append]
  exact (hs.append_right (form ts)).trans ht

theorem Begins.append_left (hs : g.Vanishes ss) (ht : g.Begins ts t) : g.Begins (ss ++ ts) t := by
  obtain ⟨name, rest, hname, hderives⟩ := ht
  refine ⟨name, rest, hname, ?_⟩
  rw [form_append]
  exact (hs.append_right (form ts)).trans hderives

theorem Begins.append_right (hs : g.Begins ss t) (ts : List Symbol) : g.Begins (ss ++ ts) t := by
  obtain ⟨name, rest, hname, hderives⟩ := hs
  refine ⟨name, rest ++ form ts, hname, ?_⟩
  rw [form_append]
  exact hderives.append_right (form ts)

/-- A rule derives what its alternatives do. -/
theorem derives_alternative (name : String) {r k : Nat} {a : Alternative Symbol}
    (ha : (k, a) ∈ g.alternativesOf r) :
    g.cfg.Produces (form [.rule name r]) (form a.sequence) := by
  have hstep := produces_of_mem_alternativesOf name ha [] []
  rwa [List.nil_append, List.nil_append, List.append_nil] at hstep

theorem Vanishes.rule (name : String) {r k : Nat} {a : Alternative Symbol}
    (ha : (k, a) ∈ g.alternativesOf r) (h : g.Vanishes a.sequence) : g.Vanishes [.rule name r] :=
  (derives_alternative name ha).trans_derives h

theorem Begins.rule (name : String) {r k : Nat} {a : Alternative Symbol}
    (ha : (k, a) ∈ g.alternativesOf r) (h : g.Begins a.sequence t) :
    g.Begins [.rule name r] t := by
  obtain ⟨first, rest, hname, hderives⟩ := h
  exact ⟨first, rest, hname, (derives_alternative name ha).trans_derives hderives⟩

end RuleSet

namespace Firsts

variable {g : RuleSet} {F : Firsts} {ss ts : List Symbol} {r t : Nat}

/-! ## Sets of two runs of symbols -/

theorem nullable_append : (F.sequence (ss ++ ts)).nullable = true ↔
    (F.sequence ss).nullable = true ∧ (F.sequence ts).nullable = true := by
  fun_induction Firsts.sequence F ss with
  | case1 => simp
  | case2 => simp [sequence]
  | case3 ss ih => exact ih
  | case4 name r ss _ hnull _ ih =>
    simp only [List.cons_append, sequence]
    rw [if_pos hnull]
    exact ih
  | case5 name r ss _ hnull =>
    have hfirst : (F.get r).nullable = false := Bool.eq_false_iff.2 hnull
    show _ ↔ (F.get r).nullable = true ∧ _
    simp [sequence, hfirst]

theorem mem_terminals_append : t ∈ (F.sequence (ss ++ ts)).terminals ↔
    t ∈ (F.sequence ss).terminals ∨
      (F.sequence ss).nullable = true ∧ t ∈ (F.sequence ts).terminals := by
  fun_induction Firsts.sequence F ss with
  | case1 => simp
  | case2 => simp [sequence]
  | case3 ss ih => exact ih
  | case4 name r ss _ hnull _ ih =>
    simp only [List.cons_append, sequence]
    rw [if_pos hnull]
    simp only [SortedSet.mem_union]
    rw [ih, or_assoc]
  | case5 name r ss _ hnull =>
    have hfirst : (F.get r).nullable = false := Bool.eq_false_iff.2 hnull
    show _ ↔ t ∈ (F.get r).terminals ∨ (F.get r).nullable = true ∧ _
    simp [sequence, hfirst]

/-! ## The sets hold nothing else -/

/-- What the set of a rule holds can be derived. -/
structure Sound (g : RuleSet) (F : Firsts) (r : Nat) : Prop where
  begins : ∀ name t, t ∈ (F.get r).terminals → g.Begins [.rule name r] t
  vanishes : ∀ name, (F.get r).nullable = true → g.Vanishes [.rule name r]

/-- The set of a run of symbols holds only what can be derived, if those that it consults do. -/
theorem sound_sequence (h : F.Consults (F.Sound g) ss) (hss : ∀ s ∈ ss, g.Names s) :
    (∀ t ∈ (F.sequence ss).terminals, g.Begins ss t) ∧
      ((F.sequence ss).nullable = true → g.Vanishes ss) := by
  induction ss with
  | nil => exact ⟨fun t ht => absurd ht (SortedSet.not_mem_empty t), fun _ => .refl _⟩
  | cons s ss ih =>
    have htail : ∀ s ∈ ss, g.Names s := fun s hs => hss s (List.mem_cons_of_mem _ hs)
    cases s with
    | terminal name id =>
      refine ⟨fun t ht => ?_, fun hnull => nomatch hnull⟩
      obtain rfl : t = id := SortedSet.mem_singleton.1 ht
      exact ⟨name, form ss, hss _ List.mem_cons_self, .refl _⟩
    | empty => exact ih h htail
    | rule name r =>
      obtain ⟨hr, hrest⟩ := h
      have hfirst (t : Nat) (ht : t ∈ (F.get r).terminals) : g.Begins (.rule name r :: ss) t :=
        (hr.begins name t ht).append_right ss
      unfold sequence
      dsimp only
      split
      · next hnull =>
        obtain ⟨hbegins, hvanishes⟩ := ih (hrest hnull) htail
        have hempty := hr.vanishes name hnull
        refine ⟨fun t ht => ?_, fun hafter => hempty.append (hvanishes hafter)⟩
        rcases SortedSet.mem_union.1 ht with ht | ht
        · exact hfirst t ht
        · exact (hbegins t ht).append_left hempty
      · next hnull => exact ⟨hfirst, fun h => absurd h hnull⟩

/-- Sets that are found hold only what can be derived. -/
theorem Built.sound (hg : g.Resolved) (h : Built g F) (hr : F.Has r) : F.Sound g r := by
  obtain ⟨n, hn⟩ : ∃ n, n = F.rank r := ⟨_, rfl⟩
  induction n using Nat.strong_induction_on generalizing r with
  | _ n ih =>
    obtain ⟨hget, hconsults⟩ := h.get_eq_and_consults hr
    have hsequence : ∀ b ∈ g.alternativesOf r,
        (∀ t ∈ (F.sequence b.2.sequence).terminals, g.Begins b.2.sequence t) ∧
          ((F.sequence b.2.sequence).nullable = true → g.Vanishes b.2.sequence) := fun b hb =>
      sound_sequence ((hconsults b hb).mono fun q hq => ih _ (hn ▸ hq.2) hq.1 rfl) (hg.names hb)
    constructor
    · intro name t ht
      rw [hget, mem_terminals_union] at ht
      obtain ⟨b, hb, ht⟩ := ht
      exact ((hsequence b hb).1 t ht).rule name hb
    · intro name hnull
      rw [hget, nullable_union] at hnull
      obtain ⟨b, hb, hnull⟩ := hnull
      exact ((hsequence b hb).2 hnull).rule name hb

/-! ## The sets hold everything -/

theorem nullable_of_form_eq_nil (h : form ss = []) : (F.sequence ss).nullable = true := by
  induction ss with
  | nil => rfl
  | cons s ss ih =>
    cases s with
    | terminal name id => cases h
    | rule name id => cases h
    | empty => exact ih h

theorem mem_terminals_of_form_eq {name : String} {rest : SententialForm}
    (h : form ss = .terminal name :: rest) (hss : ∀ s ∈ ss, g.Names s)
    (hname : g.terminalNumber? name = some t) : t ∈ (F.sequence ss).terminals := by
  induction ss with
  | nil => cases h
  | cons s ss ih =>
    cases s with
    | terminal first id =>
      cases (List.cons.inj h).1
      have hid : g.terminalNumber? name = some id := hss _ List.mem_cons_self
      obtain rfl := Option.some.inj (hname.symm.trans hid)
      exact SortedSet.mem_singleton.2 rfl
    | rule first id => cases (List.cons.inj h).1
    | empty => exact ih h fun s hs => hss s (List.mem_cons_of_mem _ hs)

/-- What a run of symbols holds after a production, it held before. -/
theorem sequence_of_alternative (hF : ∀ r, F.get r = F.union (g.alternativesOf r))
    (name : String) {k : Nat} {a : Alternative Symbol} (ha : (k, a) ∈ g.alternativesOf r)
    (ls rs : List Symbol) :
    (∀ t ∈ (F.sequence (ls ++ (a.sequence ++ rs))).terminals,
      t ∈ (F.sequence (ls ++ .rule name r :: rs)).terminals) ∧
    ((F.sequence (ls ++ (a.sequence ++ rs))).nullable = true →
      (F.sequence (ls ++ .rule name r :: rs)).nullable = true) := by
  have hrule : F.sequence [.rule name r] = F.get r := by
    simp only [sequence]
    split
    · next hnull =>
      have hunion : (F.get r).terminals ∪ ∅ = (F.get r).terminals :=
        SortedSet.ext fun x => by simp
      show (⟨(F.get r).terminals ∪ ∅, true⟩ : FirstSet) = F.get r
      rw [hunion, ← hnull]
    · rfl
  have hterminals (t : Nat) (ht : t ∈ (F.sequence a.sequence).terminals) :
      t ∈ (F.get r).terminals := by
    rw [hF, mem_terminals_union]
    exact ⟨(k, a), ha, ht⟩
  have hnullable (h : (F.sequence a.sequence).nullable = true) :
      (F.get r).nullable = true := by
    rw [hF, nullable_union]
    exact ⟨(k, a), ha, h⟩
  rw [← List.singleton_append (l := rs)]
  simp only [mem_terminals_append, nullable_append, hrule]
  constructor
  · rintro t (ht | ⟨hls, ht | ⟨hnull, ht⟩⟩)
    · exact .inl ht
    · exact .inr ⟨hls, .inl (hterminals t ht)⟩
    · exact .inr ⟨hls, .inr ⟨hnullable hnull, ht⟩⟩
  · rintro ⟨hls, hnull, hrs⟩
    exact ⟨hls, hnullable hnull, hrs⟩

/-- What can be derived from a run of symbols with known names is in its set. -/
theorem sequence_of_derives (hg : g.Resolved)
    (hF : ∀ r, F.get r = F.union (g.alternativesOf r)) (hss : ∀ s ∈ ss, g.Names s)
    {u : SententialForm} (h : g.cfg.Derives (form ss) u) :
    (u = [] → (F.sequence ss).nullable = true) ∧
      ∀ name rest, u = .terminal name :: rest → g.terminalNumber? name = some t →
        t ∈ (F.sequence ss).terminals := by
  generalize hform : form ss = v at h
  induction h using Relation.ReflTransGen.head_induction_on generalizing ss with
  | refl =>
    subst hform
    exact ⟨nullable_of_form_eq_nil, fun name rest hu hname => mem_terminals_of_form_eq hu hss hname⟩
  | head hstep _ ih =>
    obtain ⟨ls, name, r, rs, k, a, rfl, ha, hts⟩ := exists_parts_of_produces hstep hform
    obtain ⟨hterminals, hnullable⟩ := sequence_of_alternative hF name ha ls rs
    have hnames : ∀ s ∈ ls ++ (a.sequence ++ rs), g.Names s := by
      intro s hs
      rcases List.mem_append.1 hs with hs | hs
      · exact hss s (List.mem_append_left _ hs)
      rcases List.mem_append.1 hs with hs | hs
      · exact hg.names ha s hs
      · exact hss s (List.mem_append_right _ (List.mem_cons_of_mem _ hs))
    obtain ⟨hempty, hfirst⟩ := ih hnames hts
    exact ⟨fun hu => hnullable (hempty hu),
      fun first rest hu hname => hterminals t (hfirst first rest hu hname)⟩

end Firsts

namespace RuleSet

open Firsts

variable {g : RuleSet} {F : Firsts} {ss : List Symbol}

/-! ## Exactness -/

theorem consults_sound (hg : g.Resolved) (h : g.firsts = .ok F) (hss : ∀ s ∈ ss, g.Names s) :
    F.Consults (F.Sound g) ss := by
  obtain ⟨hbuilt, hhas⟩ := built_firsts hg h
  exact consults_of_forall fun name r hr => hbuilt.sound hg (hhas r (lt_length_of_names (hss _ hr)))

/-- The set of a run of symbols holds exactly the terminals with which a derived form can begin. -/
theorem mem_terminals_iff (hg : g.Resolved) (h : g.firsts = .ok F) (hss : ∀ s ∈ ss, g.Names s)
    {t : Nat} : t ∈ (F.sequence ss).terminals ↔ g.Begins ss t := by
  constructor
  · exact (sound_sequence (consults_sound hg h hss) hss).1 t
  · rintro ⟨name, rest, hname, hderives⟩
    exact (sequence_of_derives hg (get_firsts hg h) hss hderives).2 name rest rfl hname

/-- The set of a run of symbols is nullable exactly if the empty string is derived. -/
theorem nullable_iff (hg : g.Resolved) (h : g.firsts = .ok F) (hss : ∀ s ∈ ss, g.Names s) :
    (F.sequence ss).nullable = true ↔ g.Vanishes ss := by
  constructor
  · exact (sound_sequence (consults_sound hg h hss) hss).2
  · intro hvanishes
    exact (sequence_of_derives (t := 0) hg (get_firsts hg h) hss hvanishes).1 rfl

end RuleSet

end Predictive.Grammar
