import Mathlib.Order.CompletePartialOrder
import Predictive.Proofs.RegexLanguage

/-!
# Parts without states

An automaton without states matches nothing, and where it is embedded, alternatives and repetitions
read it as the empty language: `Full.words_union` and `Full.words_iterate` do not ask whether their
parts have states. A juxtaposition does not: with a part without states it is the other part
(`empty_concat`, `concat_empty`). So the automaton of an expression matches what is left of the
expression when the parts without states are taken out of its juxtapositions (`Regex.pruned`). This
contains the language of the expression, and it is the same where no juxtaposition has a part with
states beside one without (`Regex.Balanced`).
-/

namespace Predictive

open Computability

/-! ## The automaton without states -/

namespace Nfa

variable {n a b : Nfa}

/-- Where every state is in the run, a run of no states leaves the automaton without states. -/
theorem Full.eq_empty (h : n.Full) (hgraph : n.graph = []) : n = empty := by
  have hsize : n.size = 0 := by
    by_contra hne
    have hmem := h 0 (Nat.pos_of_ne_zero hne)
    rw [hgraph] at hmem
    exact List.not_mem_nil hmem
  obtain ⟨states, graph⟩ := n
  obtain rfl : graph = [] := hgraph
  obtain rfl : states = #[] := Array.eq_empty_of_size_eq_zero hsize
  rfl

theorem shift_zero (n : Nfa) : n.shift 0 = n := by
  have hshift (s : State) : s.shift 0 = s := by
    simp [State.shift]
  simp [shift, hshift]

theorem empty_beside (n : Nfa) : empty.beside n = n := by
  show ({ states := #[] ++ (n.shift 0).states, graph := [] ++ (n.shift 0).graph } : Nfa) = n
  rw [shift_zero, Array.empty_append, List.nil_append]

theorem beside_empty (n : Nfa) : n.beside empty = n := by
  simp [beside, shift, empty]

theorem empty_concat (n : Nfa) : empty.concat n = n := empty_beside n

theorem concat_empty (n : Nfa) : n.concat empty = n := by
  rw [concat]
  split
  · next hfirst => cases hfirst
  · exact beside_empty n

theorem empty_union (n : Nfa) : empty.union n = n.iterate false false := by
  have hunion : empty.union n = (empty.beside n).enclose.through (empty.beside n).size
      ((empty.beside n).size + 1) (n.shift 0).graph := rfl
  rw [hunion, empty_beside, shift_zero]
  rfl

theorem union_empty (n : Nfa) : n.union empty = n.iterate false false := by
  have hunion : n.union empty = (n.beside empty).enclose.through (n.beside empty).size
      ((n.beside empty).size + 1) n.graph := rfl
  rw [hunion, beside_empty]
  rfl

theorem iterate_empty (skip again : Bool) :
    empty.iterate skip again = oneOf (if skip then [.epsilon] else []) := by
  cases skip <;> cases again <;> decide

/-! ## Languages of the constructions -/

/-- A repetition of nothing can at most be left out. -/
theorem words_iterate_empty (skip again : Bool) :
    (empty.iterate skip again).words = if skip then 1 else 0 := by
  rw [iterate_empty]
  cases skip with
  | false =>
    refine (words_oneOf List.not_mem_nil).trans (Set.eq_empty_of_forall_notMem ?_)
    rintro cs ⟨c, l, hl, -⟩
    exact List.not_mem_nil hl
  | true =>
    have hedge {q r : Nat} {l : Label} :
        (oneOf [.epsilon]).Edge q l r ↔ q = 0 ∧ r = 1 ∧ l = .epsilon := by
      rw [edge_oneOf, List.mem_singleton]
    have hstop {cs : List Char} (hpath : (oneOf [.epsilon]).Path 1 cs 1) : cs = [] :=
      (hpath.eq_of_no_edge fun l r h => Nat.one_ne_zero (hedge.1 h).1).2
    ext cs
    rw [if_pos rfl, (ends_oneOf _).mem_words, if_pos rfl, Language.mem_one]
    constructor
    · intro hpath
      cases hpath with
      | skip hqr hpath =>
        obtain ⟨-, rfl, -⟩ := hedge.1 hqr
        exact hstop hpath
      | read hqr hreads _ =>
        obtain ⟨-, -, rfl⟩ := hedge.1 hqr
        rcases hreads with h | h <;> cases h
    · rintro rfl
      exact .skip (hedge.2 ⟨rfl, rfl, rfl⟩) (.refl 1)

namespace Full

/-- A repetition reads a part without states as the empty language. -/
theorem words_iterate (hn : n.WellFormed) (h : n.Full) (skip again : Bool) :
    (n.iterate skip again).words = (if skip then 1 else 0) + n.words * rest again n.words := by
  by_cases hgraph : n.graph = []
  · rw [words_eq_zero hgraph, h.eq_empty hgraph, words_iterate_empty, zero_mul, add_zero]
  · exact Nfa.words_iterate hn hgraph skip again

/-- So does an alternative. -/
theorem words_union (hwa : a.WellFormed) (hwb : b.WellFormed) (ha : a.Full) (hb : b.Full) :
    (a.union b).words = a.words + b.words := by
  have hpass {n : Nfa} (hn : n.WellFormed) (hfull : n.Full) :
      (n.iterate false false).words = n.words := by
    rw [words_iterate hn hfull]
    exact (zero_add _).trans (mul_one _)
  by_cases hgraph : a.graph = []
  · rw [words_eq_zero hgraph, ha.eq_empty hgraph, empty_union, hpass hwb hb, zero_add]
  by_cases hgraph' : b.graph = []
  · rw [words_eq_zero hgraph', hb.eq_empty hgraph', union_empty, hpass hwa ha, add_zero]
  · exact Nfa.words_union hwa hwb hgraph hgraph'

end Full

end Nfa

/-! ## Expressions -/

namespace Regex

variable {lookup : String → Option Nfa} {r : Regex}

/-- The automaton of the expression has no states: all that it juxtaposes are embedded automata
without states. -/
def stateless (lookup : String → Option Nfa) : Regex → Bool
  | embed name => ((lookup name).getD .empty).graph.isEmpty
  | concat a b => a.stateless lookup && b.stateless lookup
  | oneOf _ | alt _ _ | star _ | plus _ | optional _ => false

/-- The expression without the parts without states of its juxtapositions. -/
def pruned (lookup : String → Option Nfa) : Regex → Regex
  | concat a b =>
    if a.stateless lookup then b.pruned lookup
    else if b.stateless lookup then a.pruned lookup
    else concat (a.pruned lookup) (b.pruned lookup)
  | alt a b => alt (a.pruned lookup) (b.pruned lookup)
  | star a => star (a.pruned lookup)
  | plus a => plus (a.pruned lookup)
  | optional a => optional (a.pruned lookup)
  | oneOf labels => oneOf labels
  | embed name => embed name

/-- No part without states stands beside one with states. -/
def Balanced (lookup : String → Option Nfa) : Regex → Prop
  | concat a b => a.stateless lookup = b.stateless lookup ∧ a.Balanced lookup ∧ b.Balanced lookup
  | alt a b => a.Balanced lookup ∧ b.Balanced lookup
  | star a | plus a | optional a => a.Balanced lookup
  | oneOf _ | embed _ => True

theorem graph_automaton_eq_nil_iff :
    (r.automaton lookup).graph = [] ↔ r.stateless lookup = true := by
  induction r with
  | oneOf labels => simp [automaton, stateless]
  | embed name => simp [automaton, stateless]
  | concat a b iha ihb => simp [automaton, stateless, iha, ihb]
  | alt a b iha ihb => simp [automaton, stateless]
  | star a iha | plus a iha | optional a iha => simp [automaton, stateless]

theorem automaton_of_stateless (h : r.stateless lookup = true) : r.automaton lookup = .empty :=
  (full_automaton lookup r).eq_empty (graph_automaton_eq_nil_iff.2 h)

theorem language_of_stateless (h : r.stateless lookup = true) : r.language lookup = 0 := by
  induction r with
  | embed name => exact Nfa.language_eq_zero (List.isEmpty_iff.1 h)
  | concat a b iha ihb => rw [language, iha (Bool.and_eq_true_iff.1 h).1, zero_mul]
  | oneOf | alt | star | plus | optional => cases h

/-- The automaton of an expression has the words of what is left of the expression. -/
theorem words_automaton_eq_language_pruned
    (hlookup : ∀ name m, lookup name = some m → m.WellFormed)
    (h : r.Proper fun name => (lookup name).isSome) :
    (r.automaton lookup).words = (r.pruned lookup).language lookup := by
  have hwf (r : Regex) := Nfa.WellFormed.automaton lookup r
  have hfull (r : Regex) := full_automaton lookup r
  induction r with
  | oneOf labels => exact Nfa.words_oneOf h
  | embed name =>
    obtain ⟨m, hm⟩ := Option.isSome_iff_exists.1 h
    rw [pruned, automaton, language, hm]
    exact Nfa.words_bare (hlookup name m hm)
  | concat a b iha ihb =>
    rw [pruned]
    split
    · next ha => rw [automaton, automaton_of_stateless ha, Nfa.empty_concat, ihb h.2]
    split
    · next hb => rw [automaton, automaton_of_stateless hb, Nfa.concat_empty, iha h.1]
    · next ha hb =>
      rw [automaton, Nfa.words_concat (hwf a) (graph_automaton_eq_nil_iff.not.2 ha)
        (graph_automaton_eq_nil_iff.not.2 hb), iha h.1, ihb h.2, language]
  | alt a b iha ihb =>
    rw [automaton, (hfull a).words_union (hwf a) (hwf b) (hfull b), iha h.1, ihb h.2, pruned,
      language]
  | star a iha =>
    rw [automaton, (hfull a).words_iterate (hwf a), iha h]
    exact Language.one_add_self_mul_kstar_eq_kstar _
  | plus a iha =>
    rw [automaton, (hfull a).words_iterate (hwf a), iha h]
    exact zero_add _
  | optional a iha =>
    rw [automaton, (hfull a).words_iterate (hwf a), iha h]
    exact congrArg (1 + ·) (mul_one _)

theorem language_le_pruned (lookup : String → Option Nfa) (r : Regex) :
    r.language lookup ≤ (r.pruned lookup).language lookup := by
  induction r with
  | oneOf labels | embed name => exact le_rfl
  | concat a b iha ihb =>
    rw [pruned, language]
    split
    · next ha =>
      rw [language_of_stateless ha, zero_mul]
      exact bot_le
    split
    · next hb =>
      rw [language_of_stateless hb, mul_zero]
      exact bot_le
    · exact mul_le_mul' iha ihb
  | alt a b iha ihb => exact add_le_add iha ihb
  | star a iha => exact kstar_mono iha
  | plus a iha => exact mul_le_mul' iha (kstar_mono iha)
  | optional a iha => exact add_le_add le_rfl iha

theorem Balanced.language_pruned (h : r.Balanced lookup) :
    (r.pruned lookup).language lookup = r.language lookup := by
  induction r with
  | oneOf labels | embed name => rfl
  | concat a b iha ihb =>
    obtain ⟨hab, ha, hb⟩ := h
    rw [pruned, language]
    split
    · next hstateless =>
      rw [ihb hb, language_of_stateless hstateless, language_of_stateless (hab ▸ hstateless), zero_mul]
    · next hstates =>
      rw [if_neg (hab ▸ hstates), language, iha ha, ihb hb]
  | alt a b iha ihb => rw [pruned, language, language, iha h.1, ihb h.2]
  | star a iha | plus a iha | optional a iha => rw [pruned, language, language, iha h]

/-- A text that compiles writes exactly one expression, and paths from the entry to the exit of its
automaton read exactly the texts of what is left of it when the parts without states are taken out of
its juxtapositions. These include all texts that the expression stands for, with what has no states
read as the empty language. There are no others if no part without states is juxtaposed with one that
has states. -/
theorem compile_denotes_pruned (hlookup : ∀ name m, lookup name = some m → m.Built)
    {text : String} {n : Nfa} (h : compile lookup text = .ok n) :
    ∃ r, (∀ r', Written (fun name => (lookup name).isSome) .alternation
        (text.toList.filter fun c => c ≠ ' ' ∧ c ≠ '\t') r' ↔ r' = r) ∧
      (∀ cs, (∃ first last, n.entry? = some first ∧ n.exit? = some last ∧ n.Path first cs last) ↔
        cs ∈ (r.pruned lookup).language lookup) ∧
      r.language lookup ≤ (r.pruned lookup).language lookup ∧
      (r.Balanced lookup → (r.pruned lookup).language lookup = r.language lookup) := by
  obtain ⟨r, hread, rfl⟩ := map_eq_ok_iff.1 h
  have hproper := (read_eq_ok_iff.1 hread).proper
  refine ⟨r, fun r' => ?_, fun cs => ?_, language_le_pruned lookup r, Balanced.language_pruned⟩
  · rw [← read_eq_ok_iff, hread]
    exact ⟨fun h => (Except.ok.inj h).symm, fun h => congrArg _ h.symm⟩
  · rw [← mem_words_iff_exists_path,
      words_automaton_eq_language_pruned (fun name m hm => (hlookup name m hm).wellFormed) hproper]

/-- Without states, `:e:` is left out where it stands beside `a`, and is the empty language where it is
repeated, so that only the repetition matches its own reading. -/
theorem compile_denotes_pruned_alternatives :
    let lookup := fun name => if name = "e" then some Nfa.empty else none
    let r := alt (concat (embed "e") (oneOf [.char 'a'])) (concat (star (embed "e")) (oneOf [.char 'b']))
    (∀ name m, lookup name = some m → m.Built) ∧
      ∃ n, compile lookup ":e:a|:e:*b" = .ok n ∧
        (∀ cs, (∃ first last, n.entry? = some first ∧ n.exit? = some last ∧ n.Path first cs last) ↔
          cs = ['a'] ∨ cs = ['b']) ∧
        ∀ cs, cs ∈ r.language lookup ↔ cs = ['b'] := by
  intro lookup r
  have hlookup : ∀ name m, lookup name = some m → m.Built := by
    intro name m hm
    cases (Option.ite_none_right_eq_some.1 hm).2
    exact .empty
  have hread : read (fun name => (lookup name).isSome) ":e:a|:e:*b".toList = .ok r := by
    decide +kernel
  obtain ⟨r', hr', hwords, -⟩ := compile_denotes_pruned hlookup (map_eq_ok_iff.2 ⟨r, hread, rfl⟩)
  obtain rfl := (hr' r).1 (read_eq_ok_iff.1 hread)
  have hnone : (embed "e").language lookup = 0 := language_of_stateless rfl
  have hskipped : (star (embed "e")).language lookup = 1 := by rw [language, hnone, kstar_zero]
  refine ⟨hlookup, _, map_eq_ok_iff.2 ⟨r, hread, rfl⟩, fun cs => (hwords cs).trans ?_, fun cs => ?_⟩
  · show cs ∈ (oneOf [.char 'a']).language lookup +
      (star (embed "e")).language lookup * (oneOf [.char 'b']).language lookup ↔ _
    rw [hskipped, one_mul, Language.mem_add, mem_language_char, mem_language_char]
  · show cs ∈ (embed "e").language lookup * (oneOf [.char 'a']).language lookup +
      (star (embed "e")).language lookup * (oneOf [.char 'b']).language lookup ↔ _
    rw [hnone, zero_mul, zero_add, hskipped, one_mul, mem_language_char]

/-- It is not so that what has no states is read as the empty language everywhere: `:e:a` then matches
nothing, but its automaton reads `a`. -/
theorem not_forall_path_iff_mem_language :
    ¬ ∀ (lookup : String → Option Nfa) (text : String) (n : Nfa) (r : Regex) (first last : Nat),
      (∀ name m, lookup name = some m → m.Built) → compile lookup text = .ok n →
      Written (fun name => (lookup name).isSome) .alternation
        (text.toList.filter fun c => c ≠ ' ' ∧ c ≠ '\t') r →
      n.entry? = some first → n.exit? = some last →
      ∀ cs, n.Path first cs last ↔ cs ∈ r.language lookup := by
  intro h
  have hread : read (fun _ => true) ":e:a".toList = .ok (concat (embed "e") (oneOf [.char 'a'])) := by
    decide +kernel
  have hbuilt : ∀ name m, (fun _ : String => some Nfa.empty) name = some m → m.Built := by
    rintro _ _ ⟨⟩
    exact .empty
  have hn : (concat (embed "e") (oneOf [.char 'a'])).automaton (fun _ => some .empty) =
      .oneOf [.char 'a'] := by
    rw [automaton, automaton_of_stateless rfl, Nfa.empty_concat, automaton]
  have hpath : (Nfa.oneOf [.char 'a']).Path 0 ['a'] 1 :=
    .single (Nfa.edge_oneOf.2 ⟨rfl, rfl, List.mem_singleton_self _⟩) (.inr rfl)
  have hmem := (h (fun _ => some .empty) ":e:a" _ _ 0 1 hbuilt
    (map_eq_ok_iff.2 ⟨_, hread, hn⟩) (read_eq_ok_iff.1 hread) rfl rfl ['a']).1 hpath
  have hnone : (embed "e").language (fun _ => some Nfa.empty) = 0 := language_of_stateless rfl
  rw [language, hnone, zero_mul] at hmem
  exact Language.notMem_zero _ hmem

end Regex

end Predictive
