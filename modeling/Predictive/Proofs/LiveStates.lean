import Predictive.Proofs.RegexLanguage

/-!
# Automata without dead ends

From every state of a compiled automaton some path leads on to the exit (`Nfa.Live`), since every
construction leads each of its parts on to its own exit. So a text leads somewhere in the automaton
exactly if it begins one of its words (`Whole.exists_reaches_iff`).
-/

namespace Predictive

/-- Every label reads some text. -/
theorem Label.exists_spells (l : Label) : ∃ cs, l.Spells cs := by
  cases l with
  | epsilon => exact ⟨[], .inl ⟨rfl, rfl⟩⟩
  | any => exact ⟨['a'], .inr ⟨'a', .inl rfl, rfl⟩⟩
  | char c => exact ⟨[c], .inr ⟨c, .inr rfl, rfl⟩⟩

namespace Nfa

variable {n a b : Nfa}

/-- From every state some path leads to the exit. -/
def Live (n : Nfa) : Prop := ∀ q < n.size, ∃ last cs, n.exit? = some last ∧ n.Path q cs last

theorem Live.exists_path (h : n.Live) {first last q : Nat} (hends : n.Ends first last)
    (hq : q < n.size) : ∃ cs, n.Path q cs last := by
  obtain ⟨last', cs, hexit, hpath⟩ := h q hq
  obtain rfl : last = last' := Option.some.inj (hends.exit.symm.trans hexit)
  exact ⟨cs, hpath⟩

theorem Ends.live {first last : Nat} (hends : n.Ends first last)
    (h : ∀ q < n.size, ∃ cs, n.Path q cs last) : n.Live := fun q hq =>
  let ⟨cs, hpath⟩ := h q hq
  ⟨last, cs, hends.exit, hpath⟩

/-! ## Constructions lead on to their exits -/

theorem live_oneOf {labels : List Label} (h : labels ≠ []) : (oneOf labels).Live := by
  refine (ends_oneOf labels).live fun q hq => ?_
  rw [size_oneOf] at hq
  obtain rfl | rfl : q = 0 ∨ q = 1 := by omega
  · obtain ⟨l, hl⟩ := List.exists_mem_of_ne_nil labels h
    obtain ⟨cs, hcs⟩ := l.exists_spells
    exact ⟨cs ++ [], (Path.refl 1).cons (edge_oneOf.2 ⟨rfl, rfl, hl⟩) hcs⟩
  · exact ⟨[], .refl 1⟩

theorem Live.bare (hn : n.WellFormed) (hfull : n.Full) (hne : n.graph ≠ []) (h : n.Live) :
    n.bare.Live := by
  obtain ⟨first, last, hends⟩ := exists_ends hne
  refine (ends_bare hends).live fun i hi => ?_
  rw [size_bare] at hi
  have hi' := List.getElem?_eq_getElem hi
  have hlast : n.graph[n.graph.length - 1]? = some last := List.getLast?_eq_getElem? ▸ hends.exit
  obtain ⟨cs, hpath⟩ := h.exists_path hends (hn.graph_lt (List.getElem_mem hi))
  exact ⟨cs, (path_bare_iff hn.nodup hi' hlast).2 ((runPath_iff_path hn hfull).2 hpath)⟩

theorem Live.concat (hwa : a.WellFormed) (hwb : b.WellFormed) (hna : a.graph ≠ [])
    (hnb : b.graph ≠ []) (ha : a.Live) (hb : b.Live) : (a.concat b).Live := by
  obtain ⟨fa, la, hea⟩ := exists_ends hna
  obtain ⟨fb, lb, heb⟩ := exists_ends hnb
  have hla : la < a.size := hwa.graph_lt hea.last_mem
  have hright (p : Nat) (hp : p < b.size) :
      ∃ cs, (a.concat b).Path (p + a.size) cs (lb + a.size) := by
    obtain ⟨cs, hpath⟩ := hb.exists_path heb hp
    exact ⟨cs, path_concat hea heb hla (path_beside_right hpath)⟩
  refine (hea.concat heb).live fun q hq => ?_
  rw [size_concat] at hq
  by_cases hlt : q < a.size
  · obtain ⟨us, hus⟩ := ha.exists_path hea hlt
    obtain ⟨vs, hvs⟩ := hright fb (hwb.graph_lt heb.first_mem)
    exact ⟨us ++ vs, (path_concat hea heb hla (path_beside_left hus)).append
      (.skip ((edge_concat hea heb hla).2 (.inr ⟨rfl, rfl, rfl⟩)) hvs)⟩
  · obtain ⟨p, rfl⟩ : ∃ p, q = p + a.size := ⟨q - a.size, by omega⟩
    exact hright p (by omega)

theorem Live.union (hwa : a.WellFormed) (hwb : b.WellFormed) (hna : a.graph ≠ [])
    (hnb : b.graph ≠ []) (ha : a.Live) (hb : b.Live) : (a.union b).Live := by
  obtain ⟨fa, la, hea⟩ := exists_ends hna
  obtain ⟨fb, lb, heb⟩ := exists_ends hnb
  have hfa : fa < a.size := hwa.graph_lt hea.first_mem
  have hla : la < a.size := hwa.graph_lt hea.last_mem
  have hlb : lb < b.size := hwb.graph_lt heb.last_mem
  have hedge (q : Nat) (l : Label) (r : Nat) : (a.union b).Edge q l r ↔ _ :=
    edge_union hea heb hla hlb
  have hleft (q : Nat) (hq : q < a.size) :
      ∃ cs, (a.union b).Path q cs (a.size + b.size + 1) := by
    obtain ⟨cs, hpath⟩ := ha.exists_path hea hq
    exact ⟨cs, (path_union hea heb hla hlb (path_beside_left hpath)).step
      ((hedge _ _ _).2 (.inr ⟨rfl, .inr ⟨.inl rfl, rfl⟩⟩))⟩
  refine ends_union.live fun q hq => ?_
  rw [size_union] at hq
  by_cases hlt : q < a.size
  · exact hleft q hlt
  by_cases hlt' : q < a.size + b.size
  · obtain ⟨p, rfl⟩ : ∃ p, q = p + a.size := ⟨q - a.size, by omega⟩
    obtain ⟨cs, hpath⟩ := hb.exists_path heb (q := p) (by omega)
    exact ⟨cs, (path_union hea heb hla hlb (path_beside_right hpath)).step
      ((hedge _ _ _).2 (.inr ⟨rfl, .inr ⟨.inr rfl, rfl⟩⟩))⟩
  obtain rfl | rfl : q = a.size + b.size ∨ q = a.size + b.size + 1 := by omega
  · obtain ⟨cs, hpath⟩ := hleft fa hfa
    exact ⟨cs, .skip ((hedge _ _ fa).2 (.inr ⟨rfl, .inl ⟨rfl, .inl rfl⟩⟩)) hpath⟩
  · exact ⟨[], .refl _⟩

theorem Live.iterate (hwn : n.WellFormed) (hne : n.graph ≠ []) (h : n.Live)
    (skip again : Bool) : (n.iterate skip again).Live := by
  obtain ⟨first, last, hends⟩ := exists_ends hne
  have hlast : last < n.size := hwn.graph_lt hends.last_mem
  have hedge (q : Nat) (l : Label) (r : Nat) : (n.iterate skip again).Edge q l r ↔ _ :=
    edge_iterate hends hlast
  have hinner (q : Nat) (hq : q < n.size) :
      ∃ cs, (n.iterate skip again).Path q cs (n.size + 1) := by
    obtain ⟨cs, hpath⟩ := h.exists_path hends hq
    exact ⟨cs, (path_iterate hends hlast hpath).step
      ((hedge _ _ _).2 (.inr ⟨rfl, .inr ⟨rfl, .inl rfl⟩⟩))⟩
  refine (ends_iterate skip again n).live fun q hq => ?_
  rw [size_iterate] at hq
  by_cases hlt : q < n.size
  · exact hinner q hlt
  obtain rfl | rfl : q = n.size ∨ q = n.size + 1 := by omega
  · obtain ⟨cs, hpath⟩ := hinner first (hwn.graph_lt hends.first_mem)
    exact ⟨cs, .skip ((hedge _ _ first).2 (.inr ⟨rfl, .inl ⟨rfl, .inl rfl⟩⟩)) hpath⟩
  · exact ⟨[], .refl _⟩

/-! ## Whole automata -/

theorem mem_words_iff_reaches {cs : List Char} :
    cs ∈ n.words ↔ ∃ last, n.exit? = some last ∧ n.Reaches cs last := by
  constructor
  · rintro ⟨first, last, hends, hpath⟩
    exact ⟨last, hends.exit, first, hends.entry, hpath⟩
  · rintro ⟨last, hexit, first, hentry, hpath⟩
    exact ⟨first, last, ⟨hentry, hexit⟩, hpath⟩

/-- All states make up the finished automaton, and each of them leads on to its exit. -/
structure Whole (n : Nfa) : Prop where
  wellFormed : n.WellFormed
  full : n.Full
  graph_ne_nil : n.graph ≠ []
  live : n.Live

namespace Whole

theorem oneOf {labels : List Label} (h : labels ≠ []) : (oneOf labels).Whole :=
  ⟨.oneOf labels, .oneOf labels, List.cons_ne_nil _ _, live_oneOf h⟩

theorem bare (h : n.Whole) : n.bare.Whole := by
  obtain ⟨first, last, hends⟩ := exists_ends h.graph_ne_nil
  exact ⟨.bare n, .bare n, (ends_bare hends).ne_nil,
    h.live.bare h.wellFormed h.full h.graph_ne_nil⟩

theorem concat (ha : a.Whole) (hb : b.Whole) : (a.concat b).Whole where
  wellFormed := ha.wellFormed.concat hb.wellFormed
  full := ha.full.concat hb.full
  graph_ne_nil := by
    rw [graph_concat]
    exact List.append_ne_nil_of_left_ne_nil ha.graph_ne_nil _
  live := ha.live.concat ha.wellFormed hb.wellFormed ha.graph_ne_nil hb.graph_ne_nil hb.live

theorem union (ha : a.Whole) (hb : b.Whole) : (a.union b).Whole :=
  ⟨ha.wellFormed.union hb.wellFormed, ha.full.union hb.full, ends_union.ne_nil,
    ha.live.union ha.wellFormed hb.wellFormed ha.graph_ne_nil hb.graph_ne_nil hb.live⟩

theorem iterate (h : n.Whole) (skip again : Bool) : (n.iterate skip again).Whole :=
  ⟨h.wellFormed.iterate skip again, h.full.iterate skip again, (ends_iterate skip again n).ne_nil,
    h.live.iterate h.wellFormed h.graph_ne_nil skip again⟩

/-- The edges and the run alone decide. -/
theorem of_edge_iff (h : n.Whole) (hsize : a.size = n.size) (hgraph : a.graph = n.graph)
    (hedge : ∀ q l r, a.Edge q l r ↔ n.Edge q l r) : a.Whole where
  wellFormed := h.wellFormed.of_edge_iff hsize hgraph hedge
  full q hq := hgraph ▸ h.full q (hsize ▸ hq)
  graph_ne_nil := hgraph ▸ h.graph_ne_nil
  live q hq := by
    obtain ⟨last, cs, hexit, hpath⟩ := h.live q (hsize ▸ hq)
    refine ⟨last, cs, ?_, hpath.mono fun q l r => (hedge q l r).2⟩
    rw [exit_eq_getLast?, hgraph]
    exact hexit

theorem acceptExit (h : n.Whole) (o : Owner) : (n.acceptExit o).Whole :=
  h.of_edge_iff (size_acceptExit n o) (graph_acceptExit n o) fun _ _ _ => edge_acceptExit

theorem releaseExit (h : n.Whole) : n.releaseExit.Whole :=
  h.of_edge_iff (size_releaseExit n) (graph_releaseExit n) fun _ _ _ => edge_releaseExit

/-- A copy of a whole automaton has the same words. -/
theorem words_bare (h : n.Whole) : n.bare.words = n.words := by
  rw [Nfa.words_bare h.wellFormed, language_eq_words h.wellFormed h.full]

/-- A text leads somewhere exactly if it begins a word. -/
theorem exists_reaches_iff (h : n.Whole) {cs : List Char} :
    (∃ q, n.Reaches cs q) ↔ ∃ rest, cs ++ rest ∈ n.words := by
  constructor
  · rintro ⟨q, first, hentry, hpath⟩
    have hq := h.wellFormed.bounded.path_target_lt hpath (h.wellFormed.entry_lt hentry)
    obtain ⟨last, rest, hexit, hrest⟩ := h.live q hq
    exact ⟨rest, first, last, ⟨hentry, hexit⟩, hpath.append hrest⟩
  · rintro ⟨rest, first, last, hends, hpath⟩
    obtain ⟨q, hleft, -⟩ := hpath.split
    exact ⟨q, first, hends.entry, hleft⟩

end Whole

end Nfa

/-! ## Expressions -/

namespace Regex

variable {lookup : String → Option Nfa}

/-- Every class has a member. -/
def Populated : Regex → Prop
  | oneOf labels => labels ≠ []
  | embed _ => True
  | concat a b | alt a b => a.Populated ∧ b.Populated
  | star a | plus a | optional a => a.Populated

theorem Written.populated {known : String → Bool} {l : Level} {s : List Char} {a : Regex}
    (h : Written known l s a) : a.Populated := by
  induction h with
  | alt _ _ iha ihb | concat _ _ iha ihb => exact ⟨iha, ihb⟩
  | sequence _ ih | repetition _ ih | star _ ih | plus _ ih | optional _ ih | operand _ ih
  | group _ ih => exact ih
  | atom h =>
    cases h with
    | char | any | escape => exact List.cons_ne_nil _ _
    | embed => exact trivial
    | members _ hne =>
      exact fun h => hne (ofList_eq_empty_iff.1 (SortedSet.toList_injective h))
    | others _ _ _ hne => exact hne

/-- The automaton of an expression is whole if those embedded are. -/
theorem whole_automaton (hlookup : ∀ name m, lookup name = some m → m.Whole) {r : Regex}
    (hproper : r.Proper fun name => (lookup name).isSome) (hpopulated : r.Populated) :
    (r.automaton lookup).Whole := by
  induction r with
  | oneOf labels => exact .oneOf hpopulated
  | embed name =>
    obtain ⟨m, hm⟩ := Option.isSome_iff_exists.1 hproper
    rw [automaton, hm]
    exact (hlookup name m hm).bare
  | concat a b iha ihb =>
    exact (iha hproper.1 hpopulated.1).concat (ihb hproper.2 hpopulated.2)
  | alt a b iha ihb => exact (iha hproper.1 hpopulated.1).union (ihb hproper.2 hpopulated.2)
  | star a iha | plus a iha | optional a iha => exact (iha hproper hpopulated).iterate _ _

end Regex

end Predictive
