import Predictive.Grammar.Desugaring
import Predictive.Proofs.Quoting
import Mathlib.Computability.Language

/-!
# Expansion of right-hand sides

`Expr.language` reads a right-hand side as extended BNF: it builds a language from those of the names
by the regular operations. Desugaring gives symbols and alternatives that yield the same language, in
which the sub-rules it makes are expanded (`Expr.exists_expands`, `Block.mem_language_iff`).
-/

namespace Predictive.Grammar

open Computability

/-! ## Names of sub-rules -/

/-- The name of the sub-rule with that number, made for a block called `name`. -/
def subruleName (name : String) (number : Nat) : String := s!"{name}\x7b{number}\x7d"

/-- The name holds a closing brace, as names of sub-rules do and names of blocks do not. -/
def Braced (name : String) : Prop := '}' ∈ name.toList

theorem toList_subruleName (name : String) (number : Nat) : (subruleName name number).toList =
    name.toList ++ '{' :: (Nat.toDigits 10 number ++ ['}']) := by
  simp [subruleName, toString, Nat.repr]

theorem braced_subruleName (name : String) (number : Nat) : Braced (subruleName name number) := by
  simp [Braced, toList_subruleName]

/-- Sub-rules of one name have one number. -/
theorem number_eq_of_subruleName_eq {name name' : String} {i j : Nat}
    (h : subruleName name i = subruleName name' j) : i = j := by
  -- Read from the right, the digits go up to the first brace that opens.
  have hdigits (number : Nat) : ∀ c ∈ '}' :: (Nat.toDigits 10 number).reverse, c ≠ '{' := by
    intro c hc
    rcases List.mem_cons.1 hc with rfl | hc
    · decide
    · have hdigit := Nat.isDigit_of_mem_toDigits (by decide) (by decide) (List.mem_reverse.1 hc)
      rintro rfl
      cases hdigit
  have hread (name : String) (number : Nat) :
      ((subruleName name number).toList.reverse.takeWhile fun c => c ≠ '{') =
        '}' :: (Nat.toDigits 10 number).reverse := by
    have hreverse : (subruleName name number).toList.reverse =
        ('}' :: (Nat.toDigits 10 number).reverse) ++ '{' :: name.toList.reverse := by
      simp [toList_subruleName]
    rw [hreverse, List.takeWhile_append_of_pos (by simpa using hdigits number)]
    simp
  have heq := (hread name i).symm.trans ((h ▸ rfl : _ = _).trans (hread name' j))
  have htoDigits : Nat.toDigits 10 i = Nat.toDigits 10 j := by simpa using heq
  exact Text.toDigits_injective (by decide) (by decide) htoDigits

/-! ## What symbols yield -/

theorem append_mem_kstar {L : Language String} {u v : List String} (hu : u ∈ L) (hv : v ∈ L∗) :
    u ++ v ∈ L∗ := by
  have h : u ++ v ∈ 1 + L * L∗ := .inr (Language.append_mem_mul hu hv)
  rwa [Language.one_add_self_mul_kstar_eq_kstar] at h

/-- The symbols yield the words, where names that satisfy `R` are expanded by an alternative of `all`,
and each other name stands for the words of the language that `ρ` gives it. -/
inductive Yields (R : String → Prop) (all : List (Alternative Item))
    (ρ : String → Language String) : List Item → List String → Prop
  | nil : Yields R all ρ [] []
  | empty {is : List Item} {w : List String} : Yields R all ρ is w → Yields R all ρ (.empty :: is) w
  | name {n : String} {is : List Item} {u v : List String} : ¬ R n → u ∈ ρ n → Yields R all ρ is v →
      Yields R all ρ (.name n :: is) (u ++ v)
  | expand {a : Alternative Item} {is : List Item} {u v : List String} : a ∈ all → R a.name →
      Yields R all ρ a.sequence u → Yields R all ρ is v → Yields R all ρ (.name a.name :: is) (u ++ v)

namespace Yields

variable {R : String → Prop} {all : List (Alternative Item)} {ρ : String → Language String}
  {is js : List Item} {n : String} {u v w : List String}

theorem append (hu : Yields R all ρ is u) (hv : Yields R all ρ js v) :
    Yields R all ρ (is ++ js) (u ++ v) := by
  induction hu with
  | nil => exact hv
  | empty _ ih => exact ih.empty
  | name hn hu _ ih =>
    rw [List.append_assoc]
    exact .name hn hu ih
  | expand ha hR hu _ _ ih =>
    rw [List.append_assoc]
    exact .expand ha hR hu ih

theorem nil_iff : Yields R all ρ [] w ↔ w = [] := by
  constructor
  · intro h
    cases h
    rfl
  · rintro rfl
    exact .nil

theorem append_iff :
    Yields R all ρ (is ++ js) w ↔ ∃ u v, w = u ++ v ∧ Yields R all ρ is u ∧ Yields R all ρ js v := by
  constructor
  · intro h
    induction is generalizing w with
    | nil => exact ⟨[], w, rfl, .nil, h⟩
    | cons i is ih =>
      cases h with
      | empty h =>
        obtain ⟨u, v, rfl, hu, hv⟩ := ih h
        exact ⟨u, v, rfl, hu.empty, hv⟩
      | @name n _ x _ hn hx h =>
        obtain ⟨u, v, rfl, hu, hv⟩ := ih h
        exact ⟨x ++ u, v, (List.append_assoc ..).symm, .name hn hx hu, hv⟩
      | @expand a _ x _ ha hR hx h =>
        obtain ⟨u, v, rfl, hu, hv⟩ := ih h
        exact ⟨x ++ u, v, (List.append_assoc ..).symm, .expand ha hR hx hu, hv⟩
  · rintro ⟨u, v, rfl, hu, hv⟩
    exact hu.append hv

/-- A name that is not expanded yields the words of its language. -/
theorem name_iff (hn : ¬ R n) : Yields R all ρ [.name n] w ↔ w ∈ ρ n := by
  constructor
  · intro h
    cases h with
    | name _ hu h =>
      rw [nil_iff.1 h, List.append_nil]
      exact hu
    | expand _ hR => exact absurd hR hn
  · intro hw
    rw [← List.append_nil w]
    exact .name hn hw .nil

/-- A name that is expanded yields what its alternatives yield. -/
theorem expand_iff (hn : R n) :
    Yields R all ρ [.name n] w ↔ ∃ a ∈ all, a.name = n ∧ Yields R all ρ a.sequence w := by
  constructor
  · intro h
    cases h with
    | name hn' => exact absurd hn hn'
    | @expand a _ u v ha _ hu h =>
      rw [nil_iff.1 h, List.append_nil]
      exact ⟨a, ha, rfl, hu⟩
  · rintro ⟨a, ha, rfl, hw⟩
    rw [← List.append_nil w]
    exact .expand ha hn hw .nil

/-- Where the alternatives of a name are nothing and a run of symbols before the name itself, what ends
in the name ends in repetitions of the run. -/
theorem exists_of_concat (hn : R n) {ls : List Item} {L : Language String}
    (hL : ∀ w, Yields R all ρ ls w → w ∈ L)
    (hall : ∀ a ∈ all, a.name = n → a.sequence = ls ++ [.name n] ∨ a.sequence = [])
    (h : Yields R all ρ is w) (hjs : is = js ++ [.name n]) :
    ∃ u v, w = u ++ v ∧ Yields R all ρ js u ∧ v ∈ L∗ := by
  induction h generalizing js with
  | nil => simp at hjs
  | empty _ ih =>
    rcases List.cons_eq_append_iff.1 hjs with ⟨-, h⟩ | ⟨js, rfl, rfl⟩
    · cases h
    · obtain ⟨u, v, rfl, hu, hv⟩ := ih rfl
      exact ⟨u, v, rfl, hu.empty, hv⟩
  | @name n' _ x _ hn' hx _ ih =>
    rcases List.cons_eq_append_iff.1 hjs with ⟨-, h⟩ | ⟨js, rfl, rfl⟩
    · cases h
      exact absurd hn hn'
    · obtain ⟨u, v, rfl, hu, hv⟩ := ih rfl
      exact ⟨x ++ u, v, (List.append_assoc ..).symm, .name hn' hx hu, hv⟩
  | @expand a _ x y ha hR hx hy ihx ih =>
    rcases List.cons_eq_append_iff.1 hjs with ⟨rfl, h⟩ | ⟨js, rfl, rfl⟩
    · cases h
      rw [nil_iff.1 hy, List.append_nil]
      rcases hall a ha rfl with hsequence | hsequence
      · obtain ⟨u, v, rfl, hu, hv⟩ := ihx hsequence
        exact ⟨[], u ++ v, rfl, .nil, append_mem_kstar (hL u hu) hv⟩
      · rw [hsequence, nil_iff] at hx
        exact ⟨[], x, rfl, .nil, hx ▸ Language.nil_mem_kstar L⟩
    · obtain ⟨u, v, rfl, hu, hv⟩ := ih rfl
      exact ⟨x ++ u, v, (List.append_assoc ..).symm, .expand ha hR hx hu, hv⟩

/-- Such a name yields what the run yields, some number of times. -/
theorem name_iff_mem_kstar (hn : R n) {ls : List Item} {L : Language String}
    (hL : ∀ w, Yields R all ρ ls w ↔ w ∈ L)
    (hall : ∀ a ∈ all, a.name = n → a.sequence = ls ++ [.name n] ∨ a.sequence = [])
    (hmore : ∃ a ∈ all, a.name = n ∧ a.sequence = ls ++ [.name n])
    (hnone : ∃ a ∈ all, a.name = n ∧ a.sequence = []) :
    Yields R all ρ [.name n] w ↔ w ∈ L∗ := by
  constructor
  · intro h
    obtain ⟨u, v, rfl, hu, hv⟩ := h.exists_of_concat hn (fun w => (hL w).1) hall
      (show [Item.name n] = [] ++ [.name n] from rfl)
    rw [nil_iff.1 hu]
    exact hv
  · rw [Language.mem_kstar]
    rintro ⟨ws, rfl, hws⟩
    induction ws with
    | nil =>
      obtain ⟨a, ha, hname, hsequence⟩ := hnone
      exact (expand_iff hn).2 ⟨a, ha, hname, hsequence ▸ .nil⟩
    | cons u ws ih =>
      obtain ⟨hu, hws⟩ := List.forall_mem_cons.1 hws
      obtain ⟨a, ha, hname, hsequence⟩ := hmore
      refine (expand_iff hn).2 ⟨a, ha, hname, ?_⟩
      rw [hsequence, List.flatten_cons]
      exact ((hL u).2 hu).append (ih hws)

end Yields

/-! ## Right-hand sides as extended BNF -/

/-- The language of a right-hand side, given the languages of the names. -/
def Expr.language (ρ : String → Language String) : Expr → Language String
  | name n => ρ n
  | empty => 1
  | group a => a.language ρ
  | concat a b => a.language ρ * b.language ρ
  | alt a b => a.language ρ + b.language ρ
  | star a => (a.language ρ)∗
  | optional a => 1 + a.language ρ

/-- The names satisfy `P`, and alternatives stand in groups and, if `top` holds, at the top. -/
def Expr.Grouped (P : String → Prop) (top : Bool) : Expr → Prop
  | name n => P n
  | empty => True
  | group a => a.Grouped P true
  | concat a b => a.Grouped P false ∧ b.Grouped P false
  | alt a b => top = true ∧ a.Grouped P true ∧ b.Grouped P false
  | star a | optional a => a.Grouped P false

/-! ## Expansion -/

/-- An alternative of the rule `owner`, as block `b` gives it. -/
def Block.alternative (b : Block) (owner : String) (sequence : List Item) : Alternative Item :=
  { name := owner
    sequence
    subrule := owner ≠ b.name
    multiChild := b.multiChild && owner == b.name
    line := b.line }

theorem Desugaring.complete_eq (e : Desugaring) (b : Block) (owner : String) (is : List Item) :
    e.complete b owner is = ⟨e.nextNumber, e.alternatives ++ [b.alternative owner is]⟩ := rfl

theorem Expr.desugar_group {b : Block} {owner : String} {first : Nat}
    {before : List (Alternative Item)} {x : Expr} :
    (group x).desugar b owner ⟨first, before⟩ =
      let (is, e) := x.desugar b (subruleName b.name first) ⟨first + 1, before⟩
      ([.name (subruleName b.name first)], e.complete b (subruleName b.name first) is) := rfl

/-- Among `all`, the alternatives of the sub-rules of block `b` with the numbers from `first` up to
`next` are those in `added`. -/
def Provides (all : List (Alternative Item)) (b : Block) (first next : Nat)
    (added : List (Alternative Item)) : Prop :=
  ∀ j, first ≤ j → j < next → ∀ a : Alternative Item, a.name = subruleName b.name j →
    (a ∈ all ↔ a ∈ added)

/-- The sub-rules that the symbols name have alternatives in `added`. -/
def Known (added : List (Alternative Item)) (is : List Item) : Prop :=
  ∀ n, .name n ∈ is → Braced n → ∃ a ∈ added, a.name = n

/-- What desugaring `x` within the rule `owner` of block `b` leads to: the symbols, and the
alternatives that are added, where sub-rules get the numbers from `first` up to `next`. -/
structure Expands (b : Block) (owner : String) (top : Bool) (x : Expr) (first next : Nat)
    (items : List Item) (added : List (Alternative Item)) : Prop where
  desugar_eq : ∀ before, x.desugar b owner ⟨first, before⟩ = (items, ⟨next, before ++ added⟩)
  le : first ≤ next
  /-- Alternatives are added for the sub-rules, and for the owner where `top` holds. -/
  names : ∀ a ∈ added,
    (top = true ∧ a.name = owner) ∨ ∃ j, first ≤ j ∧ j < next ∧ a.name = subruleName b.name j
  known : Known added items
  known_of_mem : ∀ a ∈ added, Known added a.sequence
  /-- The symbols, and the alternatives that are added for the owner, yield the language. -/
  mem_language_iff : ∀ all ρ, Provides all b first next added → ∀ w, w ∈ x.language ρ ↔
    Yields Braced all ρ items w ∨ ∃ a ∈ added, a.name = owner ∧ Yields Braced all ρ a.sequence w

theorem Known.mono {added added' : List (Alternative Item)} {is : List Item} (h : Known added is)
    (hsubset : added ⊆ added') : Known added' is := by
  intro n hn hbraced
  obtain ⟨a, ha, hname⟩ := h n hn hbraced
  exact ⟨a, hsubset ha, hname⟩

theorem Known.subset {added : List (Alternative Item)} {is js : List Item} (h : Known added is)
    (hsubset : js ⊆ is) : Known added js := fun n hn => h n (hsubset hn)

theorem Known.append {added : List (Alternative Item)} {is js : List Item} (his : Known added is)
    (hjs : Known added js) : Known added (is ++ js) := by
  intro n hn
  rcases List.mem_append.1 hn with hn | hn
  · exact his n hn
  · exact hjs n hn

theorem known_nil (added : List (Alternative Item)) : Known added [] :=
  fun _ hn => absurd hn List.not_mem_nil

namespace Provides

variable {all ls rs : List (Alternative Item)} {b : Block} {first next f n : Nat}

theorem shrink (h : Provides all b first next ls) (hf : first ≤ f) (hn : n ≤ next) :
    Provides all b f n ls := fun j hj hjn => h j (hf.trans hj) (hjn.trans_le hn)

theorem left (h : Provides all b first next (ls ++ rs))
    (hrs : ∀ j, first ≤ j → j < next → ∀ a ∈ rs, a.name ≠ subruleName b.name j) :
    Provides all b first next ls := by
  intro j hj hjn a ha
  rw [h j hj hjn a ha, List.mem_append]
  exact or_iff_left fun hmem => hrs j hj hjn a hmem ha

theorem right (h : Provides all b first next (ls ++ rs))
    (hls : ∀ j, first ≤ j → j < next → ∀ a ∈ ls, a.name ≠ subruleName b.name j) :
    Provides all b first next rs := by
  intro j hj hjn a ha
  rw [h j hj hjn a ha, List.mem_append]
  exact or_iff_right fun hmem => hls j hj hjn a hmem ha

/-- A sub-rule yields what its alternatives yield. -/
theorem yields_iff (h : Provides all b first next ls) {j : Nat} (hj : first ≤ j) (hjn : j < next)
    {ρ : String → Language String} {w : List String} :
    Yields Braced all ρ [.name (subruleName b.name j)] w ↔
      ∃ a ∈ ls, a.name = subruleName b.name j ∧ Yields Braced all ρ a.sequence w := by
  rw [Yields.expand_iff (braced_subruleName b.name j)]
  refine exists_congr fun a => ?_
  rw [and_left_comm, and_left_comm (b := a.name = _)]
  exact and_congr_right fun ha => and_congr_left fun _ => h j hj hjn a ha

end Provides

namespace Expands

variable {b : Block} {owner : String} {top : Bool} {x l r : Expr} {first m next : Nat}
  {is js : List Item} {ls rs : List (Alternative Item)} {all : List (Alternative Item)}
  {ρ : String → Language String} {w : List String}

/-- Nothing is added for sub-rules with other numbers. -/
theorem name_ne (h : Expands b owner top x first next is ls) {j : Nat}
    (howner : owner ≠ subruleName b.name j) (hj : j < first ∨ next ≤ j) :
    ∀ a ∈ ls, a.name ≠ subruleName b.name j := by
  intro a ha hname
  rcases h.names a ha with ⟨-, hname'⟩ | ⟨k, hfirst, hnext, hname'⟩
  · exact howner (hname'.symm.trans hname)
  · have := number_eq_of_subruleName_eq (hname'.symm.trans hname)
    omega

/-- What two parts provide, each provides with its own numbers. -/
theorem provides_parts {tl tr : Bool} (hl : Expands b owner tl l first m is ls)
    (hr : Expands b owner tr r m next js rs)
    (howner : ∀ j, first ≤ j → owner ≠ subruleName b.name j)
    (hall : Provides all b first next (ls ++ rs)) :
    Provides all b first m ls ∧ Provides all b m next rs := by
  constructor
  · exact (hall.shrink le_rfl hr.le).left fun j hj hjm => hr.name_ne (howner j hj) (.inl hjm)
  · exact (hall.shrink hl.le le_rfl).right fun j hj _ =>
      hl.name_ne (howner j (hl.le.trans hj)) (.inr hj)

/-- What two parts add is added for the owner, where the first may, and for sub-rules with the numbers
of both. -/
theorem names_parts {tl : Bool} (hl : Expands b owner tl l first m is ls)
    (hr : Expands b owner false r m next js rs) : ∀ a ∈ ls ++ rs,
      (tl = true ∧ a.name = owner) ∨
        ∃ j, first ≤ j ∧ j < next ∧ a.name = subruleName b.name j := by
  intro a ha
  rcases List.mem_append.1 ha with ha | ha
  · refine (hl.names a ha).imp_right ?_
    rintro ⟨j, hj, hjm, hname⟩
    exact ⟨j, hj, hjm.trans_le hr.le, hname⟩
  · obtain ⟨j, hj, hjn, hname⟩ := (hr.names a ha).resolve_left (by simp)
    exact .inr ⟨j, hl.le.trans hj, hjn, hname⟩

theorem known_parts {tl tr : Bool} (hl : Expands b owner tl l first m is ls)
    (hr : Expands b owner tr r m next js rs) : ∀ a ∈ ls ++ rs, Known (ls ++ rs) a.sequence := by
  intro a ha
  rcases List.mem_append.1 ha with ha | ha
  · exact (hl.known_of_mem a ha).mono (List.subset_append_left ls rs)
  · exact (hr.known_of_mem a ha).mono (List.subset_append_right ls rs)

theorem yields_iff (h : Expands b owner false x first next is ls)
    (howner : ∀ j, first ≤ j → owner ≠ subruleName b.name j)
    (hall : Provides all b first next ls) : Yields Braced all ρ is w ↔ w ∈ x.language ρ := by
  rw [h.mem_language_iff all ρ hall]
  refine (or_iff_left ?_).symm
  rintro ⟨a, ha, hname, -⟩
  rcases h.names a ha with ⟨hfalse, -⟩ | ⟨j, hj, -, hname'⟩
  · cases hfalse
  · exact howner j hj (hname.symm.trans hname')

/-- Where nothing is added for the owner, the symbols alone yield the language. -/
theorem of_subrules (howner : ∀ j, first ≤ j → owner ≠ subruleName b.name j)
    (hdesugar : ∀ before, x.desugar b owner ⟨first, before⟩ = (is, ⟨next, before ++ ls⟩))
    (hle : first ≤ next)
    (hnames : ∀ a ∈ ls, ∃ j, first ≤ j ∧ j < next ∧ a.name = subruleName b.name j)
    (hknown : Known ls is) (hknowns : ∀ a ∈ ls, Known ls a.sequence)
    (hyields : ∀ all ρ, Provides all b first next ls → ∀ w,
      Yields Braced all ρ is w ↔ w ∈ x.language ρ) :
    Expands b owner top x first next is ls where
  desugar_eq := hdesugar
  le := hle
  names a ha := .inr (hnames a ha)
  known := hknown
  known_of_mem := hknowns
  mem_language_iff all ρ hall w := by
    rw [← hyields all ρ hall w]
    refine (or_iff_left ?_).symm
    rintro ⟨a, ha, hname, -⟩
    obtain ⟨j, hj, -, hname'⟩ := hnames a ha
    exact howner j hj (hname.symm.trans hname')

/-! ### One construct at a time -/

theorem name {n : String} (hn : ¬ Braced n) :
    Expands b owner top (.name n) first first [.name n] [] where
  desugar_eq before := by
    rw [List.append_nil]
    rfl
  le := le_rfl
  names _ ha := absurd ha List.not_mem_nil
  known n' hn' hbraced := by
    obtain rfl : n' = n := by simpa using hn'
    exact absurd hbraced hn
  known_of_mem _ ha := absurd ha List.not_mem_nil
  mem_language_iff all ρ _ w := by simp [Yields.name_iff hn, Expr.language]

theorem empty : Expands b owner top .empty first (first + 1) [.empty] [] where
  desugar_eq before := by
    rw [List.append_nil]
    rfl
  le := Nat.le_succ first
  names _ ha := absurd ha List.not_mem_nil
  known n' hn' _ := by simp at hn'
  known_of_mem _ ha := absurd ha List.not_mem_nil
  mem_language_iff all ρ _ w := by
    simp only [Expr.language, Language.mem_one, List.not_mem_nil, false_and, exists_false, or_false]
    constructor
    · rintro rfl
      exact .empty .nil
    · intro h
      cases h with
      | empty h => exact Yields.nil_iff.1 h

theorem concat (howner : ∀ j, first ≤ j → owner ≠ subruleName b.name j)
    (hl : Expands b owner false l first m is ls) (hr : Expands b owner false r m next js rs) :
    Expands b owner top (.concat l r) first next (is ++ js) (ls ++ rs) := by
  have hlle := hl.le
  refine of_subrules howner (fun before => ?_) (hlle.trans hr.le) (fun a ha => ?_) ?_
    (hl.known_parts hr) fun all ρ hall w => ?_
  · rw [Expr.desugar, hl.desugar_eq]
    dsimp only
    rw [hr.desugar_eq, List.append_assoc]
  · exact (hl.names_parts hr a ha).resolve_left (by simp)
  · exact (hl.known.mono (List.subset_append_left ls rs)).append
      (hr.known.mono (List.subset_append_right ls rs))
  · obtain ⟨hallL, hallR⟩ := hl.provides_parts hr howner hall
    have hrowner : ∀ j, m ≤ j → owner ≠ subruleName b.name j := fun j hj => howner j (hlle.trans hj)
    rw [Yields.append_iff, Expr.language, Language.mem_mul]
    simp only [hl.yields_iff howner hallL, hr.yields_iff hrowner hallR]
    constructor
    · rintro ⟨u, v, rfl, hu, hv⟩
      exact ⟨u, hu, v, hv, rfl⟩
    · rintro ⟨u, hu, v, hv, rfl⟩
      exact ⟨u, v, rfl, hu, hv⟩

theorem alt (howner : ∀ j, first ≤ j → owner ≠ subruleName b.name j)
    (hl : Expands b owner true l first m is ls) (hr : Expands b owner false r m next js rs) :
    Expands b owner true (.alt l r) first next js (ls ++ rs ++ [b.alternative owner is]) where
  desugar_eq before := by
    rw [Expr.desugar, hl.desugar_eq]
    dsimp only
    rw [hr.desugar_eq, Desugaring.complete_eq, List.append_assoc, List.append_assoc,
      List.append_assoc]
  le := hl.le.trans hr.le
  names a ha := by
    rcases List.mem_append.1 ha with ha | ha
    · exact hl.names_parts hr a ha
    · obtain rfl := List.mem_singleton.1 ha
      exact .inl ⟨rfl, rfl⟩
  known := hr.known.mono (by simp)
  known_of_mem a ha := by
    rcases List.mem_append.1 ha with ha | ha
    · exact (hl.known_parts hr a ha).mono (List.subset_append_left _ _)
    · obtain rfl := List.mem_singleton.1 ha
      exact hl.known.mono (by simp)
  mem_language_iff all ρ hall w := by
    have hparts : Provides all b first next (ls ++ rs) := hall.left fun j hj _ a ha => by
      obtain rfl := List.mem_singleton.1 ha
      exact howner j hj
    obtain ⟨hallL, hallR⟩ := hl.provides_parts hr howner hparts
    rw [Expr.language, Language.mem_add, hl.mem_language_iff all ρ hallL,
      hr.mem_language_iff all ρ hallR]
    simp only [List.mem_append, List.mem_singleton, or_and_right, exists_or, exists_eq_left]
    simp only [Block.alternative, true_and, or_assoc, or_comm, or_left_comm]

theorem group (howner : ∀ j, first ≤ j → owner ≠ subruleName b.name j)
    (hx : Expands b (subruleName b.name first) true x (first + 1) next is ls) :
    Expands b owner top (.group x) first next [.name (subruleName b.name first)]
      (ls ++ [b.alternative (subruleName b.name first) is]) := by
  have hle : first < next := hx.le
  have hfresh : ∀ j, first + 1 ≤ j → subruleName b.name first ≠ subruleName b.name j := by
    intro j hj h
    have := number_eq_of_subruleName_eq h
    omega
  refine of_subrules howner (fun before => ?_) hle.le (fun a ha => ?_) ?_ (fun a ha => ?_)
    fun all ρ hall w => ?_
  · rw [Expr.desugar_group, hx.desugar_eq]
    dsimp only
    rw [Desugaring.complete_eq, List.append_assoc]
  · simp only [List.mem_append, List.mem_singleton] at ha
    rcases ha with ha | rfl
    · rcases hx.names a ha with ⟨-, hname⟩ | ⟨j, hj, hjn, hname⟩
      · exact ⟨first, le_rfl, hle, hname⟩
      · exact ⟨j, by omega, hjn, hname⟩
    · exact ⟨first, le_rfl, hle, rfl⟩
  · intro n hn _
    obtain rfl : n = subruleName b.name first := by simpa using hn
    exact ⟨b.alternative (subruleName b.name first) is, by simp, rfl⟩
  · simp only [List.mem_append, List.mem_singleton] at ha
    rcases ha with ha | rfl
    · exact (hx.known_of_mem a ha).mono (by simp)
    · exact hx.known.mono (by simp)
  · have hinner : Provides all b (first + 1) next ls :=
      (hall.shrink (Nat.le_succ first) le_rfl).left fun j hj _ a ha => by
        obtain rfl := List.mem_singleton.1 ha
        exact hfresh j hj
    rw [hall.yields_iff le_rfl hle, Expr.language, hx.mem_language_iff all ρ hinner]
    simp only [List.mem_append, List.mem_singleton, or_and_right, exists_or, exists_eq_left]
    simp only [Block.alternative, true_and, or_comm]

/-- Makes a sub-rule with two alternatives, of which one is empty, from a part without alternatives
outside groups. -/
theorem of_two {y : Expr} {d : Nat} {js : List Item}
    (howner : ∀ j, first ≤ j → owner ≠ subruleName b.name j)
    (hx : Expands b owner false x first d is ls) (hjs : js ⊆ is ++ [.name (subruleName b.name d)])
    (hdesugar : ∀ before, y.desugar b owner ⟨first, before⟩ = ([.name (subruleName b.name d)],
      ⟨d + 1, before ++ (ls ++ [b.alternative (subruleName b.name d) js,
        b.alternative (subruleName b.name d) []])⟩))
    (hyields : ∀ all ρ, (∀ w, Yields Braced all ρ is w ↔ w ∈ x.language ρ) →
      (∀ a : Alternative Item, a.name = subruleName b.name d → (a ∈ all ↔
        a = b.alternative (subruleName b.name d) js ∨ a = b.alternative (subruleName b.name d) [])) →
      ∀ w, Yields Braced all ρ [.name (subruleName b.name d)] w ↔ w ∈ y.language ρ) :
    Expands b owner top y first (d + 1) [.name (subruleName b.name d)]
      (ls ++ [b.alternative (subruleName b.name d) js, b.alternative (subruleName b.name d) []]) := by
  have hle := hx.le
  have hown : ∀ a ∈ [b.alternative (subruleName b.name d) js,
      b.alternative (subruleName b.name d) []], a.name = subruleName b.name d := by
    simp [Block.alternative]
  have hknown : Known (ls ++ [b.alternative (subruleName b.name d) js,
      b.alternative (subruleName b.name d) []]) [.name (subruleName b.name d)] := by
    intro n hn _
    obtain rfl : n = subruleName b.name d := by simpa using hn
    exact ⟨b.alternative (subruleName b.name d) [], by simp, rfl⟩
  refine of_subrules howner hdesugar (by omega) (fun a ha => ?_) hknown (fun a ha => ?_)
    fun all ρ hall w => ?_
  · rcases List.mem_append.1 ha with ha | ha
    · obtain ⟨j, hj, hjd, hname⟩ := (hx.names a ha).resolve_left (by simp)
      exact ⟨j, hj, by omega, hname⟩
    · exact ⟨d, hle, by omega, hown a ha⟩
  · simp only [List.mem_append, List.mem_cons, List.not_mem_nil, or_false] at ha
    rcases ha with ha | rfl | rfl
    · exact (hx.known_of_mem a ha).mono (by simp)
    · exact fun n hn => ((hx.known.mono (by simp)).append hknown) n (hjs hn)
    · exact known_nil _
  · refine hyields all ρ (fun w => ?_) (fun a ha => ?_) w
    · refine hx.yields_iff howner ((hall.shrink le_rfl (Nat.le_succ d)).left fun j _ hj a ha h => ?_)
      have := number_eq_of_subruleName_eq ((hown a ha).symm.trans h)
      omega
    · have hnot : a ∉ ls := fun hmem => hx.name_ne (howner d hle) (.inr le_rfl) a hmem ha
      rw [hall d hle (Nat.lt_succ_self d) a ha]
      simp [hnot]

theorem optional (howner : ∀ j, first ≤ j → owner ≠ subruleName b.name j) {d : Nat}
    (hx : Expands b owner false x first d is ls) :
    Expands b owner top (.optional x) first (d + 1) [.name (subruleName b.name d)]
      (ls ++ [b.alternative (subruleName b.name d) is, b.alternative (subruleName b.name d) []]) := by
  refine of_two howner hx (by simp) (fun before => ?_) fun all ρ hpart hall w => ?_
  · rw [Expr.desugar, hx.desugar_eq]
    show (_, (⟨d + 1, before ++ ls ++ [_] ++ [_]⟩ : Desugaring)) = _
    simp only [List.append_assoc, List.singleton_append]
    rfl
  · rw [Yields.expand_iff (braced_subruleName b.name d), Expr.language, Language.mem_add,
      Language.mem_one, ← hpart]
    constructor
    · rintro ⟨a, ha, hname, hw⟩
      rcases (hall a hname).1 ha with rfl | rfl
      · exact .inr hw
      · exact .inl (Yields.nil_iff.1 hw)
    · rintro (rfl | hw)
      · exact ⟨_, (hall _ rfl).2 (.inr rfl), rfl, .nil⟩
      · exact ⟨_, (hall _ rfl).2 (.inl rfl), rfl, hw⟩

theorem star (howner : ∀ j, first ≤ j → owner ≠ subruleName b.name j) {d : Nat}
    (hx : Expands b owner false x first d is ls) :
    Expands b owner top (.star x) first (d + 1) [.name (subruleName b.name d)]
      (ls ++ [b.alternative (subruleName b.name d) (is ++ [.name (subruleName b.name d)]),
        b.alternative (subruleName b.name d) []]) := by
  refine of_two howner hx (by simp) (fun before => ?_) fun all ρ hpart hall w => ?_
  · rw [Expr.desugar, hx.desugar_eq]
    show (_, (⟨d + 1, before ++ ls ++ [_] ++ [_]⟩ : Desugaring)) = _
    simp only [List.append_assoc, List.singleton_append]
    rfl
  · refine Yields.name_iff_mem_kstar (braced_subruleName b.name d) hpart (fun a ha hname => ?_)
      ⟨_, (hall _ rfl).2 (.inl rfl), rfl, rfl⟩ ⟨_, (hall _ rfl).2 (.inr rfl), rfl, rfl⟩
    rcases (hall a hname).1 ha with rfl | rfl
    · exact .inl rfl
    · exact .inr rfl

end Expands

/-! ## Whole right-hand sides -/

/-- A right-hand side as it can be written is expanded so that its language is yielded. -/
theorem Expr.exists_expands {b : Block} (x : Expr) {top : Bool}
    (hx : x.Grouped (¬ Braced ·) top) {owner : String} {first : Nat}
    (howner : ∀ j, first ≤ j → owner ≠ subruleName b.name j) :
    ∃ next is ls, Expands b owner top x first next is ls := by
  induction x generalizing top owner first with
  | name n => exact ⟨_, _, _, .name hx⟩
  | empty => exact ⟨_, _, _, .empty⟩
  | group a ih =>
    have hfresh : ∀ j, first + 1 ≤ j → subruleName b.name first ≠ subruleName b.name j := by
      intro j hj h
      have := number_eq_of_subruleName_eq h
      omega
    obtain ⟨next, is, ls, ha⟩ := ih hx hfresh
    exact ⟨_, _, _, .group howner ha⟩
  | concat l r ihl ihr =>
    obtain ⟨m, is, ls, hl⟩ := ihl hx.1 howner
    obtain ⟨next, js, rs, hr⟩ := ihr hx.2 fun j hj => howner j (hl.le.trans hj)
    exact ⟨_, _, _, .concat howner hl hr⟩
  | alt l r ihl ihr =>
    obtain ⟨rfl, hleft, hright⟩ := hx
    obtain ⟨m, is, ls, hl⟩ := ihl hleft howner
    obtain ⟨next, js, rs, hr⟩ := ihr hright fun j hj => howner j (hl.le.trans hj)
    exact ⟨_, _, _, .alt howner hl hr⟩
  | star a ih =>
    obtain ⟨d, is, ls, ha⟩ := ih hx howner
    exact ⟨_, _, _, .star howner ha⟩
  | optional a ih =>
    obtain ⟨d, is, ls, ha⟩ := ih hx howner
    exact ⟨_, _, _, .optional howner ha⟩

/-- What desugaring block `b` leads to, where sub-rules are numbered from `first`. -/
structure Block.Expanded (b : Block) (first : Nat) : Prop where
  le : first ≤ (b.desugar first).nextNumber
  names : ∀ a ∈ (b.desugar first).alternatives, a.name = b.name ∨
    ∃ j, first ≤ j ∧ j < (b.desugar first).nextNumber ∧ a.name = subruleName b.name j
  known : ∀ a ∈ (b.desugar first).alternatives, Known (b.desugar first).alternatives a.sequence
  exists_own : ∃ a ∈ (b.desugar first).alternatives, a.name = b.name
  /-- The alternatives of the block itself yield the language of its right-hand side. -/
  mem_language_iff : ∀ all ρ,
    Provides all b first (b.desugar first).nextNumber (b.desugar first).alternatives →
    ∀ w, w ∈ b.body.language ρ ↔
      ∃ a ∈ (b.desugar first).alternatives, a.name = b.name ∧ Yields Braced all ρ a.sequence w

theorem Block.expanded (b : Block) (hname : ¬ Braced b.name)
    (hbody : b.body.Grouped (¬ Braced ·) true) (first : Nat) : b.Expanded first := by
  have howner (j : Nat) : b.name ≠ subruleName b.name j := fun h =>
    hname (h ▸ braced_subruleName b.name j)
  obtain ⟨next, is, ls, hx⟩ := b.body.exists_expands hbody fun j (_ : first ≤ j) => howner j
  have hdesugar : b.desugar first = ⟨next, ls ++ [b.alternative b.name is]⟩ := by
    rw [desugar, hx.desugar_eq]
    rfl
  constructor <;> rw [hdesugar]
  · exact hx.le
  · intro a ha
    rcases List.mem_append.1 ha with ha | ha
    · exact (hx.names a ha).imp_left And.right
    · obtain rfl := List.mem_singleton.1 ha
      exact .inl rfl
  · intro a ha
    rcases List.mem_append.1 ha with ha | ha
    · exact (hx.known_of_mem a ha).mono (List.subset_append_left _ _)
    · obtain rfl := List.mem_singleton.1 ha
      exact hx.known.mono (List.subset_append_left _ _)
  · exact ⟨b.alternative b.name is, by simp, rfl⟩
  · intro all ρ hall w
    have hparts : Provides all b first next ls := hall.left fun j _ _ a ha => by
      obtain rfl := List.mem_singleton.1 ha
      exact howner j
    rw [hx.mem_language_iff all ρ hparts]
    simp only [List.mem_append, List.mem_singleton, or_and_right, exists_or, exists_eq_left]
    simp only [Block.alternative, true_and, or_comm]

end Predictive.Grammar
