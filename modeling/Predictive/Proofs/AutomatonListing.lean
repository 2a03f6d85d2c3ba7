import Predictive.Proofs.DefinitionLines
import Predictive.Proofs.Patterns
import Predictive.Proofs.Quoting

/-!
# Listings of automata

The listing of a pattern tells what is seen of its automaton (`Dfa.outline`): which states accept, and
where an edge leads that is written with some character. But the edge for any character is written
with a dot, as the edge for a dot is. So equal listings do not make equal languages: they do exactly if
the automata have the same edges wherever a text leads (`Pattern.text_eq_iff_outline_eq`).
-/

namespace Predictive

/-! ## What is seen of an automaton -/

/-- The character with which a label is written. -/
def Label.glyph : Label → Char
  | epsilon => 'ε'
  | any => '.'
  | char c => c

theorem Label.text_eq_escape (l : Label) : l.text = escape l.glyph := by
  cases l <;> rfl

namespace Dfa

/-- What is seen of a state. -/
structure Outline where
  accepting : Bool
  /-- Where the edges lead, each with the character that it is written with. -/
  edges : List (Char × Nat)
deriving DecidableEq

def State.outline (s : State) : Outline where
  accepting := s.accepting
  edges := s.edges.map fun e => (e.1.glyph, e.2)

/-- What is seen of the states. -/
def outline (d : Dfa) : List Outline := d.states.toList.map State.outline

end Dfa

/-! ## Reading an edge -/

/-- The blanks with the letters of their escapes. -/
def blankLetters : List (Char × Char) := [(' ', 's'), ('\t', 't'), ('\r', 'r'), ('\n', 'n')]

/-- A character is written as it is, or by a letter if it is a blank. -/
theorem escape_cases (c : Char) : (escape c).toList = [c] ∨
    ∃ letter, (c, letter) ∈ blankLetters ∧ (escape c).toList = ['\\', letter] := by
  unfold escape
  split
  · exact .inr ⟨'s', by decide, rfl⟩
  · exact .inr ⟨'t', by decide, rfl⟩
  · exact .inr ⟨'r', by decide, rfl⟩
  · exact .inr ⟨'n', by decide, rfl⟩
  · exact .inl (String.toList_singleton c)

/-- What is written for a character and ends at a space tells the character. A backslash that stands
for itself is followed by the space, one that begins an escape by a letter. -/
theorem escape_append_inj {c d : Char} {x y : List Char}
    (h : (escape c).toList ++ ' ' :: x = (escape d).toList ++ ' ' :: y) : c = d ∧ x = y := by
  have hspace : ∀ e ∈ blankLetters, e.2 ≠ ' ' := by decide
  have hletter : ∀ e ∈ blankLetters, ∀ e' ∈ blankLetters, e.2 = e'.2 → e = e' := by decide
  rcases escape_cases c with hc | ⟨l, hl, hc⟩ <;> rcases escape_cases d with hd | ⟨l', hl', hd⟩ <;>
    rw [hc, hd] at h <;> simp only [List.cons_append, List.nil_append, List.cons.injEq] at h
  · exact ⟨h.1, h.2.2⟩
  · exact absurd h.2.1.symm (hspace _ hl')
  · exact absurd h.2.1 (hspace _ hl)
  · exact ⟨(Prod.mk.inj (hletter _ hl _ hl' h.2.1)).1, h.2.2.2⟩

/-- An edge as it is written. -/
def edgeChars (e : Char × Nat) : List Char :=
  " [".toList ++ ((escape e.1).toList ++ " >> d".toList ++ (Nat.toDigits 10 e.2 ++ [']']))

theorem edgeChars_append_inj {e f : Char × Nat} {x y : List Char}
    (h : edgeChars e ++ x = edgeChars f ++ y) : e = f ∧ x = y := by
  have hbracket (n : Nat) : ']' ∉ Nat.toDigits 10 n := fun hmem =>
    absurd (Nat.isDigit_of_mem_toDigits (by decide) (by decide) hmem) (by decide)
  have hglyph : (escape e.1).toList ++ ' ' :: (">> d".toList ++ (Nat.toDigits 10 e.2 ++ ']' :: x)) =
      (escape f.1).toList ++ ' ' :: (">> d".toList ++ (Nat.toDigits 10 f.2 ++ ']' :: y)) := by
    simpa [edgeChars] using h
  obtain ⟨hfst, hrest⟩ := escape_append_inj hglyph
  obtain ⟨hdigits, rfl⟩ :=
    Text.append_cons_inj_of_notMem (hbracket _) (hbracket _) (List.append_cancel_left hrest)
  exact ⟨Prod.ext hfst (Text.toDigits_injective (by decide) (by decide) hdigits), rfl⟩

/-! ## Reading the lines -/

/-- The line of a state, whose pattern is called `name` if it accepts. -/
def lineChars (name : String) (id : Nat) (o : Dfa.Outline) : List Char :=
  'd' :: (Nat.toDigits 10 id ++ ((if o.accepting then "! <".toList ++ name.toList ++ ['>'] else []) ++
    o.edges.flatMap edgeChars))

/-- The lines of states that are numbered from `id` on. -/
def linesChars (name : String) (id : Nat) : List Dfa.Outline → List Char
  | [] => []
  | o :: os => lineChars name id o ++ '\n' :: linesChars name (id + 1) os

/-- The line of a state tells what is seen of it and where the line ends. -/
theorem lineChars_append_inj {name : String} {id : Nat} {o o' : Dfa.Outline} {x y : List Char}
    (h : lineChars name id o ++ '\n' :: x = lineChars name id o' ++ '\n' :: y) :
    o = o' ∧ x = y := by
  have hfeed (e : Char × Nat) (x y : List Char) : edgeChars e ++ x ≠ '\n' :: y := fun heq =>
    absurd (List.cons.inj heq).1 (by decide)
  have hmark {es : List (Char × Nat)} {x y : List Char} :
      es.flatMap edgeChars ++ '\n' :: x ≠ '!' :: y := by
    cases es with
    | nil => exact fun heq => absurd (List.cons.inj heq).1 (by decide)
    | cons e es => exact fun heq => absurd (List.cons.inj heq).1 (by decide)
  obtain ⟨accepting, edges⟩ := o
  obtain ⟨accepting', edges'⟩ := o'
  simp only [lineChars, List.cons_append, List.append_assoc, List.cons.injEq, true_and,
    List.append_cancel_left_eq] at h
  cases accepting <;> cases accepting' <;> simp only [if_true, if_false, Bool.false_eq_true] at h
  · obtain ⟨rfl, rfl⟩ := Text.flatMap_append_inj edgeChars_append_inj hfeed h
    exact ⟨rfl, rfl⟩
  · exact absurd h hmark
  · exact absurd h.symm hmark
  · simp only [List.append_assoc, List.append_cancel_left_eq] at h
    obtain ⟨rfl, rfl⟩ := Text.flatMap_append_inj edgeChars_append_inj hfeed h
    exact ⟨rfl, rfl⟩

/-- The lines tell what is seen of the states. -/
theorem linesChars_injective {name : String} {id : Nat} {os os' : List Dfa.Outline}
    (h : linesChars name id os = linesChars name id os') : os = os' := by
  induction os generalizing id os' with
  | nil =>
    cases os' with
    | nil => rfl
    | cons o' os' => exact absurd (congrArg List.length h) (by simp [linesChars])
  | cons o os ih =>
    cases os' with
    | nil => exact absurd (congrArg List.length h) (by simp [linesChars])
    | cons o' os' =>
      obtain ⟨rfl, hrest⟩ := lineChars_append_inj h
      rw [ih hrest]

namespace Dfa

/-- All accepting states do so for patterns of one name. -/
def Called (d : Dfa) (name : String) : Prop := ∀ s ∈ d.states, ∀ o ∈ s.owners, o.name = name

theorem State.accepting_eq_isSome (s : State) : s.accepting = s.winner?.isSome := by
  obtain ⟨members, ⟨owners, ascending⟩, edges⟩ := s
  cases owners <;> rfl

theorem State.mem_owners_of_winner? {s : State} {o : Owner} (h : s.winner? = some o) : o ∈ s.owners :=
  List.mem_of_mem_head? h

theorem toList_line {s : State} {name : String} (h : ∀ o ∈ s.owners, o.name = name) (id : Nat) :
    (line id s).toList = lineChars name id s.outline := by
  have hedges : (String.join (s.edges.map fun e => s!" [{e.1.text} >> d{e.2}]")).toList =
      (s.edges.map fun e => (e.1.glyph, e.2)).flatMap edgeChars := by
    rw [String.toList_join, List.flatMap_map, List.flatMap_map]
    refine List.flatMap_congr fun e _ => ?_
    simp [edgeChars, Label.text_eq_escape, toString, Nat.repr]
  have haccepting := s.accepting_eq_isSome
  rw [line, String.toList_append, hedges]
  cases hwinner : s.winner? with
  | none =>
    rw [hwinner] at haccepting
    simp [lineChars, State.outline, haccepting, toString, Nat.repr]
  | some o =>
    rw [hwinner] at haccepting
    have hname := h o (State.mem_owners_of_winner? hwinner)
    simp [lineChars, State.outline, haccepting, hname, toString, Nat.repr]

theorem toList_unlines_line {ss : List State} {name : String}
    (h : ∀ s ∈ ss, ∀ o ∈ s.owners, o.name = name) (id : Nat) :
    (Text.unlines ((ss.zipIdx id).map fun e => line e.2 e.1)).toList =
      linesChars name id (ss.map State.outline) := by
  induction ss generalizing id with
  | nil => rfl
  | cons s ss ih =>
    obtain ⟨hs, hss⟩ := List.forall_mem_cons.1 h
    have hrest := ih hss (id + 1)
    rw [Text.toList_unlines] at hrest ⊢
    simp [List.zipIdx_cons, linesChars, toList_line hs, hrest]

theorem toList_text {d : Dfa} {name : String} (h : d.Called name) :
    d.text.toList = linesChars name 0 d.outline :=
  toList_unlines_line (fun s hs => h s (Array.mem_toList_iff.1 hs)) 0

/-! ## Edges that look alike -/

/-- The edges stand by ascending label, and none has ε. -/
structure Ordered (es : List (Label × Nat)) : Prop where
  ascending : es.Pairwise fun e f => e.1.rank < f.1.rank
  ne_epsilon : ∀ e ∈ es, e.1 ≠ .epsilon

/-- All edges but the first are for characters, by ascending character. -/
theorem Ordered.exists_char {e : Label × Nat} {es : List (Label × Nat)} (h : Ordered (e :: es)) :
    ∀ f ∈ es, ∃ c, f.1 = .char c ∧ e.1.rank < c.toNat + 2 := by
  intro f hf
  have hlt := (List.pairwise_cons.1 h.ascending).1 f hf
  cases hlabel : f.1 with
  | char c =>
    rw [hlabel] at hlt
    exact ⟨c, rfl, hlt⟩
  | epsilon => exact absurd hlabel (h.ne_epsilon f (List.mem_cons_of_mem _ hf))
  | any =>
    rw [hlabel] at hlt
    cases hfirst : e.1 with
    | epsilon => exact absurd hfirst (h.ne_epsilon e List.mem_cons_self)
    | any | char c => simp [hfirst, Label.rank] at hlt

/-- Edges for characters are read off what is seen of them. -/
theorem map_char_map_glyph {es : List (Label × Nat)} (h : ∀ f ∈ es, ∃ c, f.1 = .char c) :
    (es.map fun e => (e.1.glyph, e.2)).map (fun e => (Label.char e.1, e.2)) = es := by
  rw [List.map_map]
  refine (List.map_congr_left fun e he => ?_).trans (List.map_id es)
  obtain ⟨c, hc⟩ := h e he
  exact Prod.ext (by simp [hc, Label.glyph]) rfl

/-- The one begins with an edge for any character where the other begins with one for the dot, and the
edges that follow are for characters behind the dot. -/
def Blurred (es es' : List (Label × Nat)) : Prop :=
  ∃ i rest, es = (.any, i) :: rest ∧ es' = (.char '.', i) :: rest ∧
    ∀ f ∈ rest, ∃ c, f.1 = .char c ∧ '.' < c

/-- Edges that are written alike are the same or blurred. If a state has both an edge for any character
and one for the dot, then two edges are written with a dot, and the first is that for any character. -/
theorem eq_or_blurred {es es' : List (Label × Nat)} (h : Ordered es) (h' : Ordered es')
    (halike : es.map (fun e => (e.1.glyph, e.2)) = es'.map fun e => (e.1.glyph, e.2)) :
    es = es' ∨ Blurred es es' ∨ Blurred es' es := by
  cases es with
  | nil => exact .inl (List.map_eq_nil_iff.1 halike.symm).symm
  | cons e es =>
    cases es' with
    | nil => cases halike
    | cons e' es' =>
      obtain ⟨hhead, htail⟩ := List.cons.inj halike
      obtain ⟨l, i⟩ := e
      obtain ⟨l', i'⟩ := e'
      obtain ⟨hglyph, rfl⟩ := Prod.mk.inj hhead
      have hchar {e : Label × Nat} {es : List (Label × Nat)} (h : Ordered (e :: es)) :
          ∀ f ∈ es, ∃ c, f.1 = .char c := fun f hf => (h.exists_char f hf).imp fun _ hc => hc.1
      have hrest : es = es' := by
        rw [← map_char_map_glyph (hchar h), htail, map_char_map_glyph (hchar h')]
      subst hrest
      have hbehind (h : Ordered ((.char '.', i) :: es)) : ∀ f ∈ es, ∃ c, f.1 = .char c ∧ '.' < c :=
        fun f hf => (h.exists_char f hf).imp fun c hc => hc.imp_right Nat.lt_of_add_lt_add_right
      cases l <;> cases l'
      case any.any => exact .inl rfl
      case any.char c =>
        obtain rfl : '.' = c := hglyph
        exact .inr (.inl ⟨i, es, rfl, rfl, hbehind h'⟩)
      case char.any c =>
        obtain rfl : c = '.' := hglyph
        exact .inr (.inr ⟨i, es, rfl, rfl, hbehind h⟩)
      case char.char c d =>
        obtain rfl : c = d := hglyph
        exact .inl rfl
      all_goals first
        | exact absurd rfl (h.ne_epsilon _ List.mem_cons_self)
        | exact absurd rfl (h'.ne_epsilon _ List.mem_cons_self)

/-- The state with the edge for any character takes every character, the other one the dot and the
characters of the edges behind it; what both take leads to the same state. -/
theorem Blurred.next?_eq {s s' : State} (h : Blurred s.edges s'.edges) :
    ∃ i, ∃ rest : Char → Option Nat, (∀ c ≤ '.', rest c = none) ∧
      (∀ c, s.next? c = (rest c).or (some i)) ∧
        ∀ c, s'.next? c = if c = '.' then some i else rest c := by
  obtain ⟨i, rest, hs, hs', hrest⟩ := h
  have hnone {l : Label} (hl : ∀ c, '.' < c → .char c ≠ l) : rest.lookup l = none := by
    refine List.lookup_eq_none_iff.2 fun f hf => bne_iff_ne.2 fun heq => ?_
    obtain ⟨c, hc, hlt⟩ := hrest f hf
    exact hl c hlt (hc.symm.trans heq.symm)
  have hany : rest.lookup .any = none := hnone fun c _ => nofun
  have hskip {l k : Label} (hne : l ≠ k) : ((k, i) :: rest).lookup l = rest.lookup l := by
    rw [List.lookup_cons, beq_false_of_ne hne]
  refine ⟨i, fun c => rest.lookup (.char c), fun c hc => hnone fun d hd heq => ?_, fun c => ?_,
    fun c => ?_⟩
  · cases heq
    exact absurd hd (Char.not_lt.2 hc)
  · rw [State.next?, hs, hskip (by simp), List.lookup_cons_self]
  · rw [State.next?, hs', hskip (l := .any) (by simp), hany, Option.or_none]
    split
    · next hc => rw [hc, List.lookup_cons_self]
    · next hc => exact hskip (mt Label.char.inj hc)

/-- States that are written alike and take all characters alike have the same edges: the edge for any
character takes `!`, which an edge for the dot and those behind it do not. -/
theorem edges_eq_of_next?_eq {s s' : State} (h : Ordered s.edges) (h' : Ordered s'.edges)
    (halike : s.outline = s'.outline) (hnext : ∀ c, s.next? c = s'.next? c) : s.edges = s'.edges := by
  have hapart {s s' : State} (h : Blurred s.edges s'.edges) : s.next? '!' ≠ s'.next? '!' := by
    obtain ⟨i, rest, hnone, hs, hs'⟩ := h.next?_eq
    rw [hs, hs', hnone '!' (by decide)]
    exact nofun
  rcases eq_or_blurred h h' (congrArg Outline.edges halike) with heq | hblurred | hblurred
  · exact heq
  · exact absurd (hnext '!') (hapart hblurred)
  · exact absurd (hnext '!').symm (hapart hblurred)

/-- Where both of two states that are written alike take a character, they lead to the same state. -/
theorem next?_eq_of_isSome_eq {s s' : State} (h : Ordered s.edges) (h' : Ordered s'.edges)
    (halike : s.outline = s'.outline) {c : Char} (hsome : (s.next? c).isSome = (s'.next? c).isSome) :
    s.next? c = s'.next? c := by
  have htaken {s s' : State} (h : Blurred s.edges s'.edges)
      (hsome : (s.next? c).isSome = (s'.next? c).isSome) : s.next? c = s'.next? c := by
    obtain ⟨i, rest, hnone, hs, hs'⟩ := h.next?_eq
    rw [hs, hs'] at hsome ⊢
    split at hsome
    · next hdot => rw [if_pos hdot, hdot, hnone '.' (Char.le_refl '.'), Option.none_or]
    · next hdot =>
      rw [if_neg hdot]
      cases hrest : rest c with
      | some j => rfl
      | none => simp [hrest] at hsome
  rcases eq_or_blurred h h' (congrArg Outline.edges halike) with heq | hblurred | hblurred
  · rw [State.next?, State.next?, heq]
  · exact htaken hblurred hsome
  · exact (htaken hblurred hsome.symm).symm

/-! ## Walks -/

variable {n : Nfa} {d d' : Dfa} {cs : List Char}

theorem exists_set_of_mem {s : State} (h : s ∈ (ofNfa n).states) :
    ∃ set, s.owners = n.ownersOf set ∧
      s.edges = (n.successors set).map fun e => (e.1, n.subsets.idxOf e.2) := by
  simp only [ofNfa, List.map_toArray, List.mem_toArray, List.mem_map] at h
  obtain ⟨set, -, rfl⟩ := h
  exact ⟨set, rfl, rfl⟩

theorem ordered_of_mem {s : State} (h : s ∈ (ofNfa n).states) : Ordered s.edges := by
  obtain ⟨set, -, hedges⟩ := exists_set_of_mem h
  rw [hedges]
  constructor
  · refine List.pairwise_map.2 (List.Pairwise.filterMap _ (fun l k hlk e he f hf => ?_)
      (n.labels set).ascending)
    dsimp only at he hf
    split at he <;> cases he
    split at hf <;> cases hf
    exact Nat.compare_eq_lt.1 hlk
  · intro e he
    obtain ⟨⟨l, next⟩, hmem, rfl⟩ := List.mem_map.1 he
    exact (Nfa.mem_labels_iff.1 (Nfa.mem_successors_iff.1 hmem).1).1

theorem getElem?_outline (d : Dfa) (i : Nat) : d.outline[i]? = d.states[i]?.map State.outline := by
  rw [outline, List.getElem?_map, Array.getElem?_toList]

/-- States of one number that are written alike. -/
theorem getElem?_states_cases (h : d.outline = d'.outline) (i : Nat) :
    (d.states[i]? = none ∧ d'.states[i]? = none) ∨
      ∃ s s', d.states[i]? = some s ∧ d'.states[i]? = some s' ∧ s.outline = s'.outline := by
  have hi : d.states[i]?.map State.outline = d'.states[i]?.map State.outline := by
    rw [← getElem?_outline, h, getElem?_outline]
  cases hs : d.states[i]? <;> cases hs' : d'.states[i]? <;> rw [hs, hs'] at hi
  · exact .inl ⟨rfl, rfl⟩
  · cases hi
  · cases hi
  · exact .inr ⟨_, _, rfl, rfl, Option.some.inj hi⟩

theorem accepts_eq_of_walk_eq (h : d.outline = d'.outline) (hwalk : d.walk 0 cs = d'.walk 0 cs) :
    d.accepts cs = d'.accepts cs := by
  rw [accepts, accepts, hwalk]
  cases d'.walk 0 cs with
  | none => rfl
  | some i =>
    rcases getElem?_states_cases h i with ⟨hs, hs'⟩ | ⟨s, s', hs, hs', hout⟩
    · simp [ownersAt, hs, hs']
    · simpa [ownersAt, hs, hs', State.outline, State.accepting] using congrArg Outline.accepting hout

end Dfa

namespace Pattern

variable {p p' : Pattern} {cs : List Char}

theorem Sound.called (h : p.Sound) : p.dfa.Called p.definition.name := by
  intro s hs o ho
  obtain ⟨set, howners, -⟩ := Dfa.exists_set_of_mem (h.dfa_eq ▸ hs)
  rw [howners, Dfa.mem_ownersOf] at ho
  obtain ⟨q, -, -, ho⟩ := ho
  rw [(h.mem_owners.1 ho).2]
  rfl

theorem Sound.ordered (h : p.Sound) {i : Nat} {s : Dfa.State} (hs : p.dfa.states[i]? = some s) :
    Dfa.Ordered s.edges :=
  Dfa.ordered_of_mem (h.dfa_eq ▸ Array.mem_of_getElem? hs)

/-- A text leads somewhere exactly if it begins one that the pattern accepts. -/
theorem Sound.isSome_walk_iff (h : p.Sound) :
    (p.dfa.walk 0 cs).isSome ↔ ∃ text, p.accepts text = true ∧ cs <+: text.toList := by
  have hstart : ∃ q, p.nfa.Reaches [] q := by
    obtain ⟨first, last, hends⟩ := Nfa.exists_ends h.whole.graph_ne_nil
    exact ⟨first, first, hends.entry, .refl first⟩
  rw [h.dfa_eq, Dfa.isSome_walk_ofNfa_iff h.whole.wellFormed,
    or_iff_right_of_imp fun hcs => hcs ▸ hstart, h.whole.exists_reaches_iff]
  constructor
  · rintro ⟨rest, hrest⟩
    refine ⟨String.ofList (cs ++ rest), h.accepts_iff.2 ?_, ?_⟩ <;> rw [String.toList_ofList]
    · exact hrest
    · exact List.prefix_append cs rest
  · rintro ⟨text, htext, rest, hrest⟩
    exact ⟨rest, hrest ▸ h.accepts_iff.1 htext⟩

/-- Patterns whose automata are written alike go through the same states, if they accept the same
texts. -/
theorem Sound.walk_eq (h : p.Sound) (h' : p'.Sound) (halike : p.dfa.outline = p'.dfa.outline)
    (haccepts : ∀ text, p.accepts text = p'.accepts text) (cs : List Char) :
    p.dfa.walk 0 cs = p'.dfa.walk 0 cs := by
  induction cs using List.reverseRecOn with
  | nil => rfl
  | append_singleton cs c ih =>
    have hsome : (p.dfa.walk 0 (cs ++ [c])).isSome = (p'.dfa.walk 0 (cs ++ [c])).isSome := by
      rw [Bool.eq_iff_iff, h.isSome_walk_iff, h'.isSome_walk_iff]
      simp only [haccepts]
    rw [Dfa.walk_concat, Dfa.walk_concat, ← ih] at hsome ⊢
    cases hi : p.dfa.walk 0 cs with
    | none => rfl
    | some i =>
      rw [hi] at hsome
      simp only [Option.bind_some, Dfa.step] at hsome ⊢
      rcases Dfa.getElem?_states_cases halike i with ⟨hs, hs'⟩ | ⟨s, s', hs, hs', hout⟩
      · rw [hs, hs']
      · rw [hs, hs'] at hsome ⊢
        exact Dfa.next?_eq_of_isSome_eq (h.ordered hs) (h'.ordered hs') hout hsome

/-- Patterns whose automata are written alike accept the same texts exactly if the automata have the
same edges wherever a text leads. -/
theorem Sound.accepts_eq_iff (h : p.Sound) (h' : p'.Sound) (halike : p.dfa.outline = p'.dfa.outline) :
    (∀ text, p.accepts text = p'.accepts text) ↔ ∀ cs i, p.dfa.walk 0 cs = some i →
      p.dfa.states[i]?.map (·.edges) = p'.dfa.states[i]?.map (·.edges) := by
  constructor
  · intro haccepts cs i hi
    have hwalk := h.walk_eq h' halike haccepts
    rcases Dfa.getElem?_states_cases halike i with ⟨hs, hs'⟩ | ⟨s, s', hs, hs', hout⟩
    · rw [hs, hs']
    · refine hs ▸ hs' ▸ congrArg some ?_
      refine Dfa.edges_eq_of_next?_eq (h.ordered hs) (h'.ordered hs') hout fun c => ?_
      have hc := hwalk (cs ++ [c])
      rw [Dfa.walk_concat, Dfa.walk_concat, ← hwalk cs, hi] at hc
      simpa [Dfa.step, hs, hs'] using hc
  · intro hedges text
    refine Dfa.accepts_eq_of_walk_eq halike ?_
    induction text.toList using List.reverseRecOn with
    | nil => rfl
    | append_singleton cs c ih =>
      rw [Dfa.walk_concat, Dfa.walk_concat, ← ih]
      cases hi : p.dfa.walk 0 cs with
      | none => rfl
      | some i =>
        have hstate := hedges cs i hi
        show p.dfa.step i c = p'.dfa.step i c
        rcases Dfa.getElem?_states_cases halike i with ⟨hs, hs'⟩ | ⟨s, s', hs, hs', -⟩
        · rw [Dfa.step, Dfa.step, hs, hs']
        · rw [hs, hs'] at hstate
          have heq : s.edges = s'.edges := Option.some.inj hstate
          simp [Dfa.step, hs, hs', Dfa.State.next?, heq]

theorem toList_text (h : p.dfa.Called p.definition.name) : p.text.toList =
    (Text.unlines [s!"[{p.definition.name}] (DFA)"]).toList ++
      linesChars p.definition.name 0 p.dfa.outline := by
  rw [text, String.toList_append, Dfa.toList_text h]

/-- Patterns of one name have the same listing exactly if the same is seen of their automata. -/
theorem Sound.text_eq_iff (h : p.Sound) (h' : p'.Sound)
    (hname : p.definition.name = p'.definition.name) :
    p.text = p'.text ↔ p.dfa.outline = p'.dfa.outline := by
  rw [← String.toList_inj, toList_text h.called, toList_text h'.called, ← hname,
    List.append_cancel_left_eq]
  exact ⟨linesChars_injective, fun halike => halike ▸ rfl⟩

/-- Two patterns of one name that compile without embedding others have the same listing exactly if
the same is seen of their automata; and with the same listing, they accept the same texts exactly if
the automata have the same edges wherever a text leads, with a dot for a dot and any character for any
character. -/
theorem text_eq_iff_outline_eq {d d' : Definition} (h : compile (fun _ => none) d = .ok p)
    (h' : compile (fun _ => none) d' = .ok p') (hname : d.name = d'.name) :
    (p.text = p'.text ↔ p.dfa.outline = p'.dfa.outline) ∧
      (p.text = p'.text →
        ((∀ text, p.accepts text = p'.accepts text) ↔ ∀ cs i, p.dfa.walk 0 cs = some i →
          p.dfa.states[i]?.map (·.edges) = p'.dfa.states[i]?.map (·.edges))) := by
  have hnone : ∀ (name : String) (m : Nfa), none = some m → m.Whole := nofun
  obtain ⟨hdefinition, hsound⟩ := sound_of_compile hnone h
  obtain ⟨hdefinition', hsound'⟩ := sound_of_compile hnone h'
  have htext := hsound.text_eq_iff hsound' (by rw [hdefinition, hdefinition', hname])
  exact ⟨htext, fun heq => hsound.accepts_eq_iff hsound' (htext.1 heq)⟩

/-- The order of alternatives is not seen in a listing, and has no effect on what is accepted. -/
theorem text_eq_iff_outline_eq_swapped : ∃ p p',
    compile (fun _ => none) { name := "p", regex := "a|." } = .ok p ∧
      compile (fun _ => none) { name := "p", regex := ".|a" } = .ok p' ∧
        p ≠ p' ∧ p.text = p'.text ∧ ∀ text, p.accepts text = p'.accepts text := by
  have hcheck : (match compile (fun _ => none) { name := "p", regex := "a|." },
        compile (fun _ => none) { name := "p", regex := ".|a" } with
      | .ok p, .ok p' => decide (p ≠ p' ∧ p.dfa.outline = p'.dfa.outline ∧
          p.dfa.states.map (·.edges) = p'.dfa.states.map (·.edges))
      | _, _ => false) = true := by decide +kernel
  split at hcheck
  · next p p' h h' =>
    obtain ⟨hne, halike, hedges⟩ := of_decide_eq_true hcheck
    obtain ⟨htext, haccepts⟩ := text_eq_iff_outline_eq h h' rfl
    have heq := htext.2 halike
    refine ⟨p, p', h, h', hne, heq, (haccepts heq).2 fun cs i _ => ?_⟩
    rw [← Array.getElem?_map, hedges, Array.getElem?_map]
  · cases hcheck

/-- A listing does not tell any character from the dot. -/
theorem not_forall_accepts_eq_of_text_eq :
    ¬ ∀ (d d' : Definition) (p p' : Pattern), compile (fun _ => none) d = .ok p →
      compile (fun _ => none) d' = .ok p' → d.name = d'.name → p.text = p'.text →
        ∀ text, p.accepts text = p'.accepts text := by
  intro hall
  have hcheck : (match compile (fun _ => none) { name := "p", regex := "." },
        compile (fun _ => none) { name := "p", regex := "\\." } with
      | .ok p, .ok p' => decide (p.text = p'.text ∧ p.accepts "x" ≠ p'.accepts "x")
      | _, _ => false) = true := by decide +kernel
  split at hcheck
  · next p p' h h' =>
    obtain ⟨htext, hne⟩ := of_decide_eq_true hcheck
    exact hne (hall _ _ p p' h h' rfl htext "x")
  · cases hcheck

end Pattern

end Predictive
