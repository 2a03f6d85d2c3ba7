import Predictive.Proofs.Edges
import Predictive.Proofs.Reachability
import Predictive.Automaton.Dfa

/-!
# Paths through an automaton

A path reads a text along edges: an ε edge reads nothing, an edge for any character reads every
character, and an edge for a character reads that one (`Nfa.Path`). The sets that the deterministic
automaton is made of are sets of ends of paths: `mem_closure_iff`, `mem_advance_char`, and for a
whole text `mem_after_iff`.
-/

namespace Predictive

/-- The label reads the character. -/
def Label.Reads (l : Label) (c : Char) : Prop := l = .any ∨ l = .char c

/-- An edge labelled `k` is taken when reading along `l`: an edge for any character on every character,
and each edge on its own label. -/
def Label.TakenOn (k l : Label) : Prop := k = l ∨ k = .any ∧ ∃ c, l = .char c

theorem Label.takenOn_char {k : Label} {c : Char} : k.TakenOn (.char c) ↔ k.Reads c := by
  simp [TakenOn, Reads, or_comm]

theorem Label.takenOn_any {k : Label} : k.TakenOn .any ↔ k = .any := by
  simp [TakenOn]

/-- The label reads the text, which is empty for ε and otherwise one character. -/
def Label.Spells (l : Label) (cs : List Char) : Prop :=
  l = .epsilon ∧ cs = [] ∨ ∃ c, l.Reads c ∧ cs = [c]

/-- There is a path along the edges of a graph from one state to another that reads a text. -/
inductive Path (edge : Nat → Label → Nat → Prop) : Nat → List Char → Nat → Prop
  /-- The path without edges. -/
  | refl (q : Nat) : Path edge q [] q
  /-- An edge that reads nothing, then a path. -/
  | skip {q r t : Nat} {cs : List Char} :
      edge q .epsilon r → Path edge r cs t → Path edge q cs t
  /-- An edge that reads a character, then a path. -/
  | read {q r t : Nat} {l : Label} {c : Char} {cs : List Char} :
      edge q l r → l.Reads c → Path edge r cs t → Path edge q (c :: cs) t

namespace Path

variable {edge edge' : Nat → Label → Nat → Prop} {p q r : Nat} {cs ds : List Char}

theorem append (h : Path edge p cs q) (h' : Path edge q ds r) : Path edge p (cs ++ ds) r := by
  induction h with
  | refl => exact h'
  | skip hedge _ ih => exact .skip hedge (ih h')
  | read hedge hreads _ ih => exact .read hedge hreads (ih h')

theorem single {l : Label} {c : Char} (hedge : edge q l r) (hreads : l.Reads c) :
    Path edge q [c] r :=
  .read hedge hreads (.refl r)

theorem step (h : Path edge p cs q) (hedge : edge q .epsilon r) : Path edge p cs r := by
  simpa using h.append (.skip hedge (.refl r))

/-- A map of states that keeps edges keeps paths. -/
theorem map {f : Nat → Nat} (hf : ∀ q l r, edge q l r → edge' (f q) l (f r))
    (h : Path edge p cs q) : Path edge' (f p) cs (f q) := by
  induction h with
  | refl q => exact .refl _
  | skip hedge _ ih => exact .skip (hf _ _ _ hedge) ih
  | read hedge hreads _ ih => exact .read (hf _ _ _ hedge) hreads ih

theorem mono (hedge : ∀ q l r, edge q l r → edge' q l r) (h : Path edge p cs q) :
    Path edge' p cs q :=
  h.map (f := id) hedge

/-- A path that reads two texts passes a state between them. -/
theorem split (h : Path edge p (cs ++ ds) r) : ∃ q, Path edge p cs q ∧ Path edge q ds r := by
  generalize htext : cs ++ ds = text at h
  induction h generalizing cs with
  | refl q =>
    obtain ⟨rfl, rfl⟩ := List.append_eq_nil_iff.1 htext
    exact ⟨q, .refl q, .refl q⟩
  | skip hedge _ ih =>
    obtain ⟨m, hleft, hright⟩ := ih htext
    exact ⟨m, .skip hedge hleft, hright⟩
  | @read q r t l c rest hedge hreads hpath ih =>
    cases cs with
    | nil =>
      obtain rfl : ds = c :: rest := htext
      exact ⟨q, .refl q, .read hedge hreads hpath⟩
    | cons a cs =>
      obtain ⟨rfl, hrest⟩ := List.cons.inj htext
      obtain ⟨m, hleft, hright⟩ := ih hrest
      exact ⟨m, .read hedge hreads hleft, hright⟩

/-- A path that reads one character takes one edge for it, between edges that read nothing. -/
theorem of_singleton {c : Char} (h : Path edge p [c] r) :
    ∃ q s l, Path edge p [] q ∧ edge q l s ∧ l.Reads c ∧ Path edge s [] r := by
  generalize htext : [c] = text at h
  induction h with
  | refl => cases htext
  | skip hedge _ ih =>
    obtain ⟨q, s, l, hleft, hrest⟩ := ih htext
    exact ⟨q, s, l, .skip hedge hleft, hrest⟩
  | @read q r t l c' rest hedge hreads hpath ih =>
    obtain ⟨rfl, rfl⟩ := List.cons.inj htext
    exact ⟨q, r, l, .refl q, hedge, hreads, hpath⟩

/-- A state without outgoing edges ends every path. -/
theorem eq_of_no_edge (hp : ∀ l r, ¬ edge p l r) (h : Path edge p cs q) : q = p ∧ cs = [] := by
  cases h with
  | refl => exact ⟨rfl, rfl⟩
  | skip hedge => exact absurd hedge (hp _ _)
  | read hedge => exact absurd hedge (hp _ _)

/-- An edge and the text that its label reads, before a path. -/
theorem cons {l : Label} (hedge : edge p l q) (hspells : l.Spells ds) (h : Path edge q cs r) :
    Path edge p (ds ++ cs) r := by
  rcases hspells with ⟨rfl, rfl⟩ | ⟨c, hreads, rfl⟩
  · exact .skip hedge h
  · exact .read hedge hreads h

/-- Goes back from the end of a path along its edges: what holds at the end of having nothing left to
read, and is kept by each edge with the text that it reads, holds at the start of the whole text. -/
theorem induction_to {motive : Nat → List Char → Prop} (hend : motive r [])
    (hstep : ∀ p l q ds cs, edge p l q → l.Spells ds → motive q cs → motive p (ds ++ cs))
    (h : Path edge p cs r) : motive p cs := by
  induction h with
  | refl => exact hend
  | skip hedge _ ih => exact hstep _ _ _ [] _ hedge (.inl ⟨rfl, rfl⟩) (ih hend)
  | read hedge hreads _ ih => exact hstep _ _ _ [_] _ hedge (.inr ⟨_, hreads, rfl⟩) (ih hend)

end Path

namespace Nfa

open Relation

/-- There is a path from one state to another that reads a text. -/
abbrev Path (n : Nfa) : Nat → List Char → Nat → Prop := Predictive.Path n.Edge

/-- Some path from the entry to `q` reads the text. -/
def Reaches (n : Nfa) (cs : List Char) (q : Nat) : Prop := ∃ e, n.entry? = some e ∧ n.Path e cs q

theorem Bounded.path_target_lt {n : Nfa} (hn : n.Bounded) {p q : Nat} {cs : List Char}
    (h : n.Path p cs q) (hp : p < n.size) : q < n.size := by
  induction h with
  | refl => exact hp
  | skip hedge _ ih => exact ih (hn.target_lt hedge)
  | read hedge _ _ ih => exact ih (hn.target_lt hedge)

/-! ## Sets of ends -/

theorem path_nil_iff_reflTransGen {n : Nfa} {q r : Nat} :
    n.Path q [] r ↔
      ReflTransGen (Reach.Edge fun id => (n.state id).targets .epsilon) q r := by
  constructor
  · intro h
    generalize htext : [] = text at h
    induction h with
    | refl => exact .refl
    | skip hedge _ ih => exact .head (mem_targets.2 hedge) (ih htext)
    | read => cases htext
  · intro h
    induction h with
    | refl => exact .refl q
    | tail _ hedge ih => exact ih.step (mem_targets.1 hedge)

theorem mem_closure_iff {n : Nfa} (hn : n.Bounded) {set : SortedSet Nat} {r : Nat} :
    r ∈ n.closure set ↔ ∃ q ∈ set, n.Path q [] r := by
  rw [closure, mem_reach_iff fun q r hr => hn.target_lt (mem_targets.1 hr)]
  exact exists_congr fun q => and_congr_right fun _ => path_nil_iff_reflTransGen.symm

theorem mem_destinations_iff {s : Nfa.State} {l : Label} {r : Nat} :
    r ∈ s.destinations l ↔ ∃ k : Label, k.TakenOn l ∧ (k, r) ∈ s.edges := by
  cases l with
  | char c =>
    rw [State.destinations, List.mem_append, mem_targets, mem_targets]
    constructor
    · rintro (h | h)
      · exact ⟨_, .inl rfl, h⟩
      · exact ⟨_, .inr ⟨rfl, c, rfl⟩, h⟩
    · rintro ⟨k, rfl | ⟨rfl, -⟩, h⟩
      · exact .inl h
      · exact .inr h
  | epsilon | any => simp [State.destinations, mem_targets, Label.TakenOn]

/-- A move takes the edges that are taken on a label. -/
theorem mem_move_iff {n : Nfa} {set : SortedSet Nat} {l : Label} {r : Nat} :
    r ∈ n.move set l ↔ ∃ q ∈ set, ∃ k : Label, k.TakenOn l ∧ n.Edge q k r := by
  rw [move, SortedSet.mem_ofList, List.mem_flatMap]
  exact exists_congr fun q => and_congr_right fun _ => mem_destinations_iff

theorem mem_move_char {n : Nfa} {set : SortedSet Nat} {c : Char} {r : Nat} :
    r ∈ n.move set (.char c) ↔ ∃ q ∈ set, ∃ l : Label, l.Reads c ∧ n.Edge q l r := by
  simp only [mem_move_iff, Label.takenOn_char]

theorem mem_move_any {n : Nfa} {set : SortedSet Nat} {r : Nat} :
    r ∈ n.move set .any ↔ ∃ q ∈ set, n.Edge q .any r := by
  simp only [mem_move_iff, Label.takenOn_any, exists_eq_left]

theorem mem_advance_char {n : Nfa} (hn : n.Bounded) {set : SortedSet Nat} {c : Char} {r : Nat} :
    r ∈ n.advance set (.char c) ↔
      ∃ q ∈ set, ∃ (l : Label) (s : Nat), n.Edge q l s ∧ l.Reads c ∧ n.Path s [] r := by
  rw [advance, mem_closure_iff hn]
  constructor
  · rintro ⟨s, hs, hpath⟩
    obtain ⟨q, hq, l, hreads, hedge⟩ := mem_move_char.1 hs
    exact ⟨q, hq, l, s, hedge, hreads, hpath⟩
  · rintro ⟨q, hq, l, s, hedge, hreads, hpath⟩
    exact ⟨s, mem_move_char.2 ⟨q, hq, l, hreads, hedge⟩, hpath⟩

/-- The states that the entry leads to by reading a text, as a set computed character by character.
-/
def after (n : Nfa) (cs : List Char) : SortedSet Nat :=
  cs.foldl (fun set c => n.advance set (.char c)) n.startSet

@[simp] theorem after_nil (n : Nfa) : n.after [] = n.startSet := rfl

theorem after_concat (n : Nfa) (cs : List Char) (c : Char) :
    n.after (cs ++ [c]) = n.advance (n.after cs) (.char c) :=
  List.foldl_append ..

theorem mem_startSet_iff {n : Nfa} (hn : n.Bounded) {q : Nat} :
    q ∈ n.startSet ↔ n.Reaches [] q := by
  rw [startSet, mem_closure_iff hn]
  simp only [SortedSet.mem_ofList, Option.mem_toList, Reaches]

theorem mem_after_iff {n : Nfa} (hn : n.Bounded) {cs : List Char} {q : Nat} :
    q ∈ n.after cs ↔ n.Reaches cs q := by
  induction cs using List.reverseRecOn generalizing q with
  | nil => exact mem_startSet_iff hn
  | append_singleton cs c ih =>
    rw [after_concat, mem_advance_char hn]
    constructor
    · rintro ⟨p, hp, l, s, hedge, hreads, hpath⟩
      obtain ⟨e, he, hleft⟩ := ih.1 hp
      exact ⟨e, he, hleft.append (.read hedge hreads hpath)⟩
    · rintro ⟨e, he, hpath⟩
      obtain ⟨p, hleft, hright⟩ := hpath.split
      obtain ⟨p', s, l, hskip, hedge, hreads, hrest⟩ := hright.of_singleton
      exact ⟨p', ih.2 ⟨e, he, by simpa using hleft.append hskip⟩, l, s, hedge, hreads, hrest⟩

end Nfa

end Predictive
