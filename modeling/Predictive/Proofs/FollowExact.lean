import Predictive.Proofs.Ambiguity
import Predictive.Proofs.FollowLoop

/-!
# FIRST and FOLLOW sets by derivations

The FIRST set of a rule holds exactly what the forms derived from it begin with
(`mem_first_iff_derives`). The FOLLOW sets are the least that solve their equations, and where every
rule can be reached from the start, the FOLLOW set of a rule holds exactly what stands directly after
it in a form derived from the start before the end of the input (`follows_isLeast`): a form keeps what
can come after its rules when one of them is replaced (`Respects.expand`), and where something comes
after a rule, such a form is found along the equations (`precedes_of_follow`).
-/

namespace Predictive.Grammar

open Relation (ReflTransGen)

/-- The set holds something, or is nullable. -/
def FirstSet.Lively (first : FirstSet) : Prop := first.nullable = true ∨ ∃ t, t ∈ first.terminals

namespace RuleSet

variable {g : RuleSet} {F : Firsts} {p r t : Nat} {ss ts : List Symbol}

/-! ## What a rule derives -/

/-- A rule derives what its alternatives do, besides itself. -/
theorem derives_nonterminal_iff {w : SententialForm} (hw : w ≠ [.nonterminal r]) :
    g.cfg.Derives [.nonterminal r] w ↔
      ∃ k a, (k, a) ∈ g.alternativesOf r ∧ g.cfg.Derives (form a.sequence) w := by
  constructor
  · intro h
    rcases ReflTransGen.cases_head h with rfl | ⟨u, hstep, hu⟩
    · exact absurd rfl hw
    · obtain ⟨k, a, ha, rfl⟩ := exists_alternative_of_produces hstep
      exact ⟨k, a, ha, hu⟩
  · rintro ⟨k, a, ha, h⟩
    exact (derives_alternative "" ha).trans_derives h

/-- The FIRST set of a rule holds exactly the terminals with which a form derived from it can begin. -/
theorem mem_get_firsts_iff (hg : g.Resolved) (h : g.firsts = .ok F) :
    t ∈ (F.get r).terminals ↔ ∃ name rest, g.terminalNumber? name = some t ∧
      g.cfg.Derives [.nonterminal r] (.terminal name :: rest) := by
  rw [get_firsts hg h, Firsts.mem_terminals_union]
  constructor
  · rintro ⟨⟨k, a⟩, ha, ht⟩
    obtain ⟨name, rest, hname, hderives⟩ := (mem_terminals_iff hg h (hg.names ha)).1 ht
    exact ⟨name, rest, hname, (derives_nonterminal_iff (by simp)).2 ⟨k, a, ha, hderives⟩⟩
  · rintro ⟨name, rest, hname, hderives⟩
    obtain ⟨k, a, ha, hderives⟩ := (derives_nonterminal_iff (by simp)).1 hderives
    exact ⟨(k, a), ha, (mem_terminals_iff hg h (hg.names ha)).2 ⟨name, rest, hname, hderives⟩⟩

/-- The FIRST set of a rule is nullable exactly if the rule derives the empty string. -/
theorem nullable_get_firsts_iff (hg : g.Resolved) (h : g.firsts = .ok F) :
    (F.get r).nullable = true ↔ g.cfg.Derives [.nonterminal r] [] := by
  rw [get_firsts hg h, Firsts.nullable_union, derives_nonterminal_iff (by simp)]
  constructor
  · rintro ⟨⟨k, a⟩, ha, hnull⟩
    exact ⟨k, a, ha, (nullable_iff hg h (hg.names ha)).1 hnull⟩
  · rintro ⟨k, a, ha, hderives⟩
    exact ⟨(k, a), ha, (nullable_iff hg h (hg.names ha)).2 hderives⟩

/-- Rules for which the search for the sets succeeds have no left recursion. -/
theorem not_leftRecursive_of_isOk (hg : g.Resolved) (h : g.firsts.isOk = true) (r : Nat) :
    ¬ g.LeftRecursive r := by
  obtain ⟨F, hF⟩ := exists_eq_ok_of_isOk h
  exact not_leftRecursive_of_firsts hg hF r

end RuleSet

/-- For every set of rules without left recursion: the search for the FIRST sets succeeds, its sets are
those that the grammar keeps when it compiles, and they are exact. A terminal is in the set of a rule
exactly if some form that begins with it is derived from the rule, and the set is nullable exactly if
the empty string is. -/
theorem mem_first_iff_derives (eof : String) (texts : RuleTexts)
    (h : ∀ r, ¬ (RuleSet.ofTexts eof texts).LeftRecursive r) :
    let g := RuleSet.ofTexts eof texts
    ∃ F, g.firsts = .ok F ∧ (∀ c, ofRuleSet g = .ok c → ∀ r, c.first r = F.get r) ∧
      ∀ r, (∀ t, t ∈ (F.get r).terminals ↔ ∃ name rest, g.terminalNumber? name = some t ∧
          g.cfg.Derives [.nonterminal r] (.terminal name :: rest)) ∧
        ((F.get r).nullable = true ↔ g.cfg.Derives [.nonterminal r] []) := by
  intro g
  have hg : g.Resolved := RuleSet.resolved_ofTexts eof texts
  obtain ⟨F, hF⟩ := RuleSet.exists_firsts hg h
  refine ⟨F, hF, fun c hc r => ?_, fun r => ⟨fun t => ?_, ?_⟩⟩
  · obtain ⟨hrules, hcompiled⟩ := compiled_of_ofRuleSet hc
    have hfirsts := hcompiled.firsts
    rw [hrules, hF] at hfirsts
    rw [Grammar.first, Except.ok.inj hfirsts]
  · exact RuleSet.mem_get_firsts_iff hg hF
  · exact RuleSet.nullable_get_firsts_iff hg hF

/-- The rule `A` can be empty, and `U` derives no string of terminals. The start begins with what
either begins with. -/
theorem mem_first_iff_derives_unproductive :
    let g := RuleSet.ofTexts "eof" [("S", [{ name := "S", sequence := [.name "A", .name "U"] }]),
      ("A", [{ name := "A", sequence := [.name "a"] }, { name := "A", sequence := [.empty] }]),
      ("U", [{ name := "U", sequence := [.name "x", .name "U"] }])]
    (∀ r, ¬ g.LeftRecursive r) ∧
      (∃ rest, g.cfg.Derives [.nonterminal 0] (.terminal "a" :: rest)) ∧
      (∃ rest, g.cfg.Derives [.nonterminal 0] (.terminal "x" :: rest)) ∧
      g.cfg.Derives [.nonterminal 1] [] ∧ ¬ g.cfg.Derives [.nonterminal 0] [] := by
  intro g
  have hleft : ∀ r, ¬ g.LeftRecursive r :=
    RuleSet.not_leftRecursive_of_isOk (RuleSet.resolved_ofTexts _ _) (by decide +kernel)
  obtain ⟨F, hF, -, hexact⟩ := mem_first_iff_derives "eof" _ hleft
  have hsets : g.firsts.map (fun F => (F.get 0, F.get 1)) =
      .ok (⟨.ofList [1, 3], false⟩, ⟨.ofList [1], true⟩) := by
    decide +kernel
  rw [hF] at hsets
  obtain ⟨hstart, hempty⟩ := Prod.mk.inj (Except.ok.inj hsets)
  have hbegins (t : Nat) (ht : t ∈ (F.get 0).terminals) :
      ∃ rest, g.cfg.Derives [.nonterminal 0] (.terminal (g.terminalName t) :: rest) := by
    obtain ⟨name, rest, hname, hderives⟩ := ((hexact 0).1 t).1 ht
    obtain rfl := RuleSet.terminalName_eq hname
    exact ⟨rest, hderives⟩
  refine ⟨hleft, hbegins 1 ?_, hbegins 3 ?_, (hexact 1).2.1 ?_, fun h => ?_⟩
  · rw [hstart]
    decide
  · rw [hstart]
    decide
  · rw [hempty]
  · have hnull := (hexact 0).2.2 h
    rw [hstart] at hnull
    cases hnull

namespace RuleSet

variable {g : RuleSet} {F : Firsts} {p q r t : Nat} {ss ts : List Symbol}

/-! ## The equations of FOLLOW sets -/

/-- The sets solve the equations of FOLLOW sets: the end of the input comes after the start, and after
an occurrence of a rule come the terminals with which the symbols behind it can begin and, if these
derive the empty string, all that comes after the rule of the alternative. -/
structure FollowClosed (g : RuleSet) (S : Nat → Set Nat) : Prop where
  start : 0 < g.rules.length → 0 ∈ S 0
  begins : ∀ {owner r t k : Nat} {a : Alternative Symbol} {before after : List Symbol}
    {name : String}, (k, a) ∈ g.alternativesOf owner → a.sequence = before ++ .rule name r :: after →
    g.Begins after t → t ∈ S r
  inherits : ∀ {owner r k : Nat} {a : Alternative Symbol} {before after : List Symbol}
    {name : String}, (k, a) ∈ g.alternativesOf owner → a.sequence = before ++ .rule name r :: after →
    g.Vanishes after → S owner ⊆ S r

theorem mem_getD_follows_iff (hg : g.Resolved) (h : g.firsts = .ok F) :
    t ∈ (g.follows F)[r]?.getD ∅ ↔ r < g.rules.length ∧ g.Follow r t := by
  rw [← mem_followOf_iff_follow hg h]
  exact mem_get_follows_iff

/-- The FOLLOW sets are the least that solve their equations. -/
theorem isLeast_follows (hg : g.Resolved) (h : g.firsts = .ok F) :
    IsLeast {S | g.FollowClosed S} fun r => {t | t ∈ (g.follows F)[r]?.getD ∅} := by
  simp only [mem_getD_follows_iff hg h]
  have hrange {owner r k : Nat} {a : Alternative Symbol} {before after : List Symbol} {name : String}
      (ha : (k, a) ∈ g.alternativesOf owner) (hseq : a.sequence = before ++ .rule name r :: after) :
      r < g.rules.length :=
    hg.inRange ha name r (hseq ▸ List.mem_append_right _ List.mem_cons_self)
  refine ⟨⟨fun hlt => ⟨hlt, .start⟩, fun ha hseq ht => ⟨hrange ha hseq, .begins ha hseq ht⟩,
    fun ha hseq hnull t ht => ⟨hrange ha hseq, .inherits ha hseq hnull ht.2⟩⟩, ?_⟩
  rintro S hS r t ⟨hr, ht⟩
  induction ht with
  | start => exact hS.start hr
  | begins ha hseq ht => exact hS.begins ha hseq ht
  | inherits ha hseq hnull _ ih =>
    exact hS.inherits ha hseq hnull (ih (lt_length_of_mem_alternativesOf ha))

/-! ## What stands after a rule in a form -/

/-- The rule stands directly before the terminal in some form derived from the start before the end of
the input. -/
def Precedes (g : RuleSet) (r t : Nat) : Prop :=
  ∃ name u v, g.terminalNumber? name = some t ∧
    g.cfg.Derives (form [g.start, g.eof]) (u ++ .nonterminal r :: .terminal name :: v)

theorem begins_append_iff (hg : g.Resolved) (h : g.firsts = .ok F) (hss : ∀ s ∈ ss, g.Names s)
    (hts : ∀ s ∈ ts, g.Names s) :
    g.Begins (ss ++ ts) t ↔ g.Begins ss t ∨ g.Vanishes ss ∧ g.Begins ts t := by
  have hboth : ∀ s ∈ ss ++ ts, g.Names s := fun s hs => (List.mem_append.1 hs).elim (hss s) (hts s)
  rw [← mem_terminals_iff hg h hboth, ← mem_terminals_iff hg h hss, ← mem_terminals_iff hg h hts,
    ← nullable_iff hg h hss, Firsts.mem_terminals_append]

/-- What comes after each rule among the symbols is in its FOLLOW set. -/
def Respects (g : RuleSet) (ss : List Symbol) : Prop :=
  ∀ before name r after, ss = before ++ .rule name r :: after → ∀ t, g.Begins after t → g.Follow r t

/-- A form keeps what can come after its rules when one of them is replaced. -/
theorem Respects.expand (hg : g.Resolved) (h : g.firsts = .ok F) {ls rs : List Symbol} {k : Nat}
    {name : String} {a : Alternative Symbol} (ha : (k, a) ∈ g.alternativesOf p)
    (hrs : ∀ s ∈ rs, g.Names s) (hrespects : g.Respects (ls ++ .rule name p :: rs)) :
    g.Respects (ls ++ (a.sequence ++ rs)) := by
  intro before first r after hparts t ht
  rcases exists_of_append_eq_append_cons hparts with ⟨mid, rfl, rfl⟩ | ⟨mid, rfl, hmid⟩
  · refine hrespects before first r (mid ++ .rule name p :: rs) (by simp) t ?_
    obtain ⟨tname, rest, htname, hderives⟩ := ht
    exact ⟨tname, rest, htname,
      (produces_of_mem_alternativesOf name ha mid rs).trans_derives hderives⟩
  rcases exists_of_append_eq_append_cons hmid with ⟨mid', hseq, rfl⟩ | ⟨mid', rfl, rfl⟩
  · -- The rule stands in the alternative: what comes after it does so there, or after the whole.
    rcases (begins_append_iff hg h (names_after hg ha hseq) hrs).1 ht with ht | ⟨hnull, ht⟩
    · exact .begins ha hseq ht
    · exact .inherits ha hseq hnull (hrespects ls name p rs rfl t ht)
  · exact hrespects (ls ++ .rule name p :: mid') first r after (by simp) t ht

/-- In every form derived from the start before the end of the input, what comes after a rule is in its
FOLLOW set. -/
theorem respects_of_derives (hg : g.Resolved) (h : g.firsts = .ok F) (hstart : g.Respects ss)
    (hss : ∀ s ∈ ss, g.Names s) {w : SententialForm} (hw : g.cfg.Derives (form ss) w) :
    ∃ ts, form ts = w ∧ (∀ s ∈ ts, g.Names s) ∧ g.Respects ts := by
  induction hw with
  | refl => exact ⟨ss, rfl, hss, hstart⟩
  | tail _ hstep ih =>
    obtain ⟨ts, hts, hnames, hrespects⟩ := ih
    obtain ⟨ls, name, p, rs, k, a, rfl, ha, hform⟩ := exists_parts_of_produces hstep hts
    have hrs : ∀ s ∈ rs, g.Names s := fun s hs =>
      hnames s (List.mem_append_right _ (List.mem_cons_of_mem _ hs))
    refine ⟨_, hform, fun s hs => ?_, hrespects.expand hg h ha hrs⟩
    rcases List.mem_append.1 hs with hs | hs
    · exact hnames s (List.mem_append_left _ hs)
    · exact (List.mem_append.1 hs).elim (hg.names ha s) (hrs s)

/-- After the start comes the end of the input. -/
theorem respects_start (hg : g.Resolved) (h : g.firsts = .ok F) (heof : g.Names g.eof) :
    g.Respects [g.start, g.eof] := by
  intro before name r after hparts t ht
  cases before with
  | nil =>
    obtain ⟨hstart, rfl⟩ := List.cons.inj hparts
    cases hstart
    rw [← mem_terminals_iff hg h (by simpa using heof)] at ht
    obtain rfl : t = 0 := SortedSet.mem_singleton.1 ht
    exact .start
  | cons s before =>
    have hmem : Symbol.rule name r ∈ [g.eof] := (List.cons.inj hparts).2 ▸ by simp
    cases List.mem_singleton.1 hmem

theorem follow_of_precedes (hg : g.Resolved) (h : g.firsts = .ok F) (hrules : 0 < g.rules.length)
    (heof : g.Names g.eof) (hprecedes : g.Precedes r t) : g.Follow r t := by
  obtain ⟨name, u, v, hname, hderives⟩ := hprecedes
  have hnames : ∀ s ∈ [g.start, g.eof], g.Names s := by
    simp [names_start hrules, heof]
  obtain ⟨ts, hts, -, hrespects⟩ :=
    respects_of_derives hg h (respects_start hg h heof) hnames hderives
  obtain ⟨us, vs, rfl, rfl, hvs⟩ := exists_of_form_eq_append hts
  rw [← List.singleton_append] at hvs
  obtain ⟨ms, vs, rfl, hms, hrest⟩ := exists_of_form_eq_append hvs
  obtain ⟨first, es, fs, rfl, -, hfs⟩ := exists_of_form_eq_nonterminal hms
  refine hrespects (us ++ es) first r (fs ++ vs) (by simp) t ⟨name, v, hname, ?_⟩
  rw [form_append, hfs, hrest]
  exact .refl _

/-! ## The other way round -/

/-- An alternative of the first rule has the second among its symbols. -/
def Uses (g : RuleSet) (p q : Nat) : Prop :=
  ∃ k a name, (k, a) ∈ g.alternativesOf p ∧ .rule name q ∈ a.sequence

/-- The rule can be reached from the start, through the symbols of alternatives. -/
def Reachable (g : RuleSet) (r : Nat) : Prop := ReflTransGen g.Uses 0 r

/-- In a form that is derived, a rule can be replaced. -/
theorem derives_expand {w u v : SententialForm} {k : Nat} {a : Alternative Symbol}
    (ha : (k, a) ∈ g.alternativesOf p) (h : g.cfg.Derives w (u ++ .nonterminal p :: v)) :
    g.cfg.Derives w (u ++ (form a.sequence ++ v)) := by
  have hstep : g.cfg.Produces [.nonterminal p] (form a.sequence) := derives_alternative "" ha
  refine h.trans_produces ?_
  rw [← List.singleton_append (l := v)]
  exact (hstep.append_right v).append_left u

theorem derives_occurrence {w u v : SententialForm} {k : Nat} {a : Alternative Symbol}
    {before after : List Symbol} {name : String} (ha : (k, a) ∈ g.alternativesOf p)
    (hseq : a.sequence = before ++ .rule name q :: after)
    (h : g.cfg.Derives w (u ++ .nonterminal p :: v)) :
    g.cfg.Derives w ((u ++ form before) ++ .nonterminal q :: (form after ++ v)) := by
  have hexpand := derives_expand ha h
  rw [hseq, form_append] at hexpand
  simpa [form] using hexpand

/-- A rule that can be reached stands in a form derived from the start. -/
theorem Reachable.derives (h : g.Reachable r) :
    ∃ u v, g.cfg.Derives [.nonterminal 0] (u ++ .nonterminal r :: v) := by
  induction h with
  | refl => exact ⟨[], [], .refl _⟩
  | tail _ huses ih =>
    obtain ⟨u, v, hderives⟩ := ih
    obtain ⟨k, a, name, ha, hmem⟩ := huses
    obtain ⟨before, after, hseq⟩ := List.append_of_mem hmem
    exact ⟨_, _, derives_occurrence ha hseq hderives⟩

/-- Where every rule can be reached, what is in the FOLLOW set of a rule stands after it in some form.
-/
theorem precedes_of_follow (heof : g.Names g.eof) (hreachable : ∀ r < g.rules.length, g.Reachable r)
    (h : g.Follow r t) : g.Precedes r t := by
  induction h with
  | start => exact ⟨g.terminalName 0, [], [], heof, .refl _⟩
  | @begins owner r t k a before after name ha hseq ht =>
    obtain ⟨tname, rest, htname, hderives⟩ := ht
    obtain ⟨u, v, howner⟩ := (hreachable owner (lt_length_of_mem_alternativesOf ha)).derives
    have hform := (derives_occurrence ha hseq howner).append_right (form [g.eof])
    have hafter := (hderives.append_right (v ++ form [g.eof])).append_left
      ((u ++ form before) ++ [.nonterminal r])
    refine ⟨tname, u ++ form before, rest ++ (v ++ form [g.eof]), htname, hform.trans ?_⟩
    simpa using hafter
  | @inherits owner r t k a before after name ha hseq hnull _ ih =>
    obtain ⟨tname, u, v, htname, howner⟩ := ih
    have hform := derives_occurrence ha hseq howner
    have hafter := (hnull.append_right (.terminal tname :: v)).append_left
      ((u ++ form before) ++ [.nonterminal r])
    refine ⟨tname, u ++ form before, v, htname, hform.trans ?_⟩
    simpa using hafter

/-! ## Rules that something follows -/

theorem lively_sequence (h : F.Consults (fun q => (F.get q).Lively) ss) :
    (F.sequence ss).Lively := by
  induction ss with
  | nil => exact .inl rfl
  | cons s ss ih =>
    cases s with
    | terminal name t => exact .inr ⟨t, SortedSet.mem_singleton.2 rfl⟩
    | empty => exact ih h
    | rule name r =>
      obtain ⟨hr, hrest⟩ := h
      unfold Firsts.sequence
      dsimp only
      split
      · next hnull =>
        rcases ih (hrest hnull) with hafter | ⟨t, ht⟩
        · exact .inl hafter
        · exact .inr ⟨t, SortedSet.mem_union.2 (.inr ht)⟩
      · exact hr

/-- Where every rule has an alternative, the set of each is nullable or holds something: the sets that
it consults are found before it. -/
theorem lively_get (hg : g.Resolved) (h : g.firsts = .ok F)
    (hfull : ∀ r < g.rules.length, g.alternativesOf r ≠ []) (hr : r < g.rules.length) :
    (F.get r).Lively := by
  obtain ⟨hbuilt, hhas⟩ := built_firsts hg h
  obtain ⟨n, hn⟩ : ∃ n, F.rank r = n := ⟨_, rfl⟩
  induction n using Nat.strong_induction_on generalizing r with
  | _ n ih =>
    obtain ⟨⟨k, a⟩, ha⟩ := List.exists_mem_of_ne_nil _ (hfull r hr)
    obtain ⟨hget, hconsults⟩ := hbuilt.get_eq_and_consults (hhas r hr)
    have hlively : (F.sequence a.sequence).Lively :=
      lively_sequence ((hconsults _ ha).mono fun q hq => ih _ (hn ▸ hq.2) (hbuilt.lt_length hq.1) rfl)
    rw [hget]
    rcases hlively with hnull | ⟨t, ht⟩
    · exact .inl (Firsts.nullable_union.2 ⟨(k, a), ha, hnull⟩)
    · exact .inr ⟨t, Firsts.mem_terminals_union.2 ⟨(k, a), ha, ht⟩⟩

/-- Where every rule has an alternative, something comes after each rule that can be reached. -/
theorem exists_follow (hg : g.Resolved) (h : g.firsts = .ok F)
    (hfull : ∀ r < g.rules.length, g.alternativesOf r ≠ []) (hr : g.Reachable r) :
    ∃ t, g.Follow r t := by
  induction hr with
  | refl => exact ⟨0, .start⟩
  | tail _ huses ih =>
    obtain ⟨k, a, name, ha, hmem⟩ := huses
    obtain ⟨before, after, hseq⟩ := List.append_of_mem hmem
    have hafter := names_after hg ha hseq
    have hlively : (F.sequence after).Lively := lively_sequence <|
      Firsts.consults_of_forall fun _ q hq => lively_get hg h hfull (lt_length_of_names (hafter _ hq))
    rcases hlively with hnull | ⟨t, ht⟩
    · obtain ⟨t, ht⟩ := ih
      exact ⟨t, .inherits ha hseq ((nullable_iff hg h hafter).1 hnull) ht⟩
    · exact ⟨t, .begins ha hseq ((mem_terminals_iff hg h hafter).1 ht)⟩

end RuleSet

/-- The FOLLOW sets of a compiled grammar, in which empty sets are filled. -/
theorem follow_of_ofRuleSet {g : RuleSet} {F : Firsts} {c : Grammar} (hF : g.firsts = .ok F)
    (hc : ofRuleSet g = .ok c) {r : Nat} (hr : r < g.rules.length) :
    c.follow r = RuleSet.fillFollow ((g.follows F)[r]?.getD ∅) := by
  unfold ofRuleSet at hc
  rw [hF] at hc
  dsimp only at hc
  split at hc
  · cases hc
  · cases hc
    simp [follow, RuleSet.follows, hr]

/-- For every set of rules without left recursion: the passes over its alternatives come to an end,
with the FOLLOW sets, which are the least that solve their equations. Where every rule can be reached
from the start, a terminal is in the set of a rule exactly if it stands directly after the rule in some
form derived from the start before the end of the input. The compiled grammar keeps these sets, but
for those that are empty, in which it puts the end of the input; none is empty where every rule can be
reached and has an alternative. -/
theorem follows_isLeast (eof : String) (texts : RuleTexts)
    (h : ∀ r, ¬ (RuleSet.ofTexts eof texts).LeftRecursive r) :
    let g := RuleSet.ofTexts eof texts
    ∃ F, g.firsts = .ok F ∧
      (∀ final, g.FollowLoop F g.followStart final ↔ final = g.follows F) ∧
      IsLeast {S | g.FollowClosed S} (fun r => {t | t ∈ (g.follows F)[r]?.getD ∅}) ∧
      ((∀ r < g.rules.length, g.Reachable r) → ∀ r < g.rules.length, ∀ t,
        t ∈ (g.follows F)[r]?.getD ∅ ↔ ∃ name u v, g.terminalNumber? name = some t ∧
          g.cfg.Derives [.nonterminal 0, .terminal eof] (u ++ .nonterminal r :: .terminal name :: v)) ∧
      ∀ c, ofRuleSet g = .ok c → ∀ r < g.rules.length,
        c.follow r = RuleSet.fillFollow ((g.follows F)[r]?.getD ∅) ∧
          ((∀ r < g.rules.length, g.Reachable r ∧ g.alternativesOf r ≠ []) →
            c.follow r = (g.follows F)[r]?.getD ∅) := by
  intro g
  have hg : g.Resolved := RuleSet.resolved_ofTexts eof texts
  obtain ⟨F, hF⟩ := RuleSet.exists_firsts hg h
  have heof : g.eof = .terminal eof 0 := RuleSet.eof_ofTexts eof texts
  have hnames : g.Names g.eof := heof ▸ RuleSet.terminalNumber?_eof eof texts
  refine ⟨F, hF, fun final => RuleSet.followLoop_iff hg, RuleSet.isLeast_follows hg hF,
    fun hreachable r hr t => ?_, fun c hc r hr => ?_⟩
  · have hform : form [g.start, g.eof] = [.nonterminal 0, .terminal eof] := by
      rw [heof]
      rfl
    rw [RuleSet.mem_getD_follows_iff hg hF, and_iff_right hr, ← hform]
    exact ⟨RuleSet.precedes_of_follow hnames hreachable,
      RuleSet.follow_of_precedes hg hF (Nat.zero_lt_of_lt hr) hnames⟩
  · have hfollow := follow_of_ofRuleSet hF hc hr
    refine ⟨hfollow, fun hall => ?_⟩
    obtain ⟨t, ht⟩ :=
      RuleSet.exists_follow hg hF (fun q hq => (hall q hq).2) (hall r hr).1
    have hmem : t ∈ (g.follows F)[r]?.getD ∅ := (RuleSet.mem_getD_follows_iff hg hF).2 ⟨hr, ht⟩
    rw [hfollow, RuleSet.fillFollow, if_neg]
    rw [SortedSet.isEmpty_eq_false_iff.2 ⟨t, hmem⟩]
    exact Bool.false_ne_true

/-- Of `A` and `B` each can stand last in the other, and `B` can be empty. So `b`, with which `B`
begins, comes after both, and so does the end of the input. -/
theorem follows_isLeast_cyclic :
    let g := RuleSet.ofTexts "eof" [("S", [{ name := "S", sequence := [.name "A", .name "B"] }]),
      ("A", [{ name := "A", sequence := [.name "a", .name "B"] },
        { name := "A", sequence := [.empty] }]),
      ("B", [{ name := "B", sequence := [.name "b", .name "A"] },
        { name := "B", sequence := [.empty] }])]
    (∀ r, ¬ g.LeftRecursive r) ∧ (∀ r < g.rules.length, g.Reachable r) ∧
      (∃ F, g.FollowLoop F g.followStart [.ofList [0], .ofList [0, 3], .ofList [0, 3]]) ∧
      (∃ u v, g.cfg.Derives [.nonterminal 0, .terminal "eof"]
        (u ++ .nonterminal 2 :: .terminal "b" :: v)) ∧
      ¬ ∃ u v, g.cfg.Derives [.nonterminal 0, .terminal "eof"]
        (u ++ .nonterminal 2 :: .terminal "a" :: v) := by
  intro g
  have hleft : ∀ r, ¬ g.LeftRecursive r :=
    RuleSet.not_leftRecursive_of_isOk (RuleSet.resolved_ofTexts _ _) (by decide +kernel)
  have hreachable : ∀ r < g.rules.length, g.Reachable r := by
    have huses (r : Nat) (name : String) (hmem : Symbol.rule name r ∈ [.rule "A" 1, .rule "B" 2]) :
        g.Uses 0 r :=
      ⟨0, { name := "S", sequence := [.rule "A" 1, .rule "B" 2] }, name, by decide +kernel, hmem⟩
    intro r hr
    match r, hr with
    | 0, _ => exact .refl
    | 1, _ => exact .single (huses 1 "A" (by decide))
    | 2, _ => exact .single (huses 2 "B" (by decide))
  obtain ⟨F, hF, hloop, -, hexact, -⟩ := follows_isLeast "eof" _ hleft
  have hsets : g.firsts.map g.follows = .ok [.ofList [0], .ofList [0, 3], .ofList [0, 3]] := by
    decide +kernel
  rw [hF] at hsets
  replace hsets : g.follows F = _ := Except.ok.inj hsets
  have hlength : 2 < g.rules.length := by decide +kernel
  refine ⟨hleft, hreachable, ⟨F, (hloop _).2 hsets.symm⟩, ?_, ?_⟩
  · have hmem : 3 ∈ (g.follows F)[2]?.getD ∅ := by
      rw [hsets]
      decide
    obtain ⟨name, u, v, hname, hderives⟩ := (hexact hreachable 2 hlength 3).1 hmem
    obtain rfl := RuleSet.terminalName_eq hname
    exact ⟨u, v, hderives⟩
  · rintro ⟨u, v, hderives⟩
    have hmem := (hexact hreachable 2 hlength 1).2 ⟨"a", u, v, by decide +kernel, hderives⟩
    rw [hsets] at hmem
    revert hmem
    decide

end Predictive.Grammar
