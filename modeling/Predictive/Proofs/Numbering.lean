import Predictive.Proofs.ExtendedBnf

/-!
# Numbers of sub-rules

What desugaring a right-hand side gives, as functions of its shape and of the number that is next:
the symbols that stand for it, the alternatives between its bars, and what is added for its parts
(`Expr.desugar_eq`). A part has a number of its own, and the alternatives with the name of its
sub-rule are those made for it, whatever else the blocks hold (`filter_allAlternatives_of_part`).
-/

namespace Predictive.Grammar

/-! ## Symbols and sequences -/

namespace Expr

/-- How many numbers a right-hand side takes: each group, `*` and `?` takes one, and so does `()`. -/
def numbers : Expr → Nat
  | name _ => 0
  | empty => 1
  | group a | star a | optional a => a.numbers + 1
  | concat a b | alt a b => a.numbers + b.numbers

/-- The symbols for a right-hand side in the block called `home`; of alternatives, those for the last
one. -/
def symbols (home : String) (first : Nat) : Expr → List Item
  | name n => [.name n]
  | empty => [.empty]
  | group _ => [.name (subruleName home first)]
  | concat a b => a.symbols home first ++ b.symbols home (first + a.numbers)
  | alt a b => b.symbols home (first + a.numbers)
  | star a | optional a => [.name (subruleName home (first + a.numbers))]

/-- The symbols of each alternative of a right-hand side. -/
def sequences (home : String) (first : Nat) : Expr → List (List Item)
  | alt a b => a.sequences home first ++ [b.symbols home (first + a.numbers)]
  | x => [x.symbols home first]

/-- The alternatives that are completed within a right-hand side, all but its last one. -/
def added (b : Block) (owner : String) (first : Nat) : Expr → List (Alternative Item)
  | name _ | empty => []
  | group x =>
    let sub := subruleName b.name first
    x.added b sub (first + 1) ++ [b.alternative sub (x.symbols b.name (first + 1))]
  | concat l r => l.added b owner first ++ r.added b owner (first + l.numbers)
  | alt l r => l.added b owner first ++ r.added b owner (first + l.numbers) ++
      [b.alternative owner (l.symbols b.name first)]
  | star x =>
    let sub := subruleName b.name (first + x.numbers)
    x.added b owner first ++
      [b.alternative sub (x.symbols b.name first ++ [.name sub]), b.alternative sub []]
  | optional x =>
    let sub := subruleName b.name (first + x.numbers)
    x.added b owner first ++ [b.alternative sub (x.symbols b.name first), b.alternative sub []]

/-- What is added depends on the block only in its name and in what its alternatives are. -/
theorem added_map (x : Expr) (b b' : Block) (f : Alternative Item → Alternative Item)
    (hname : b'.name = b.name)
    (halternative : ∀ owner is, b'.alternative owner is = f (b.alternative owner is))
    (owner : String) (first : Nat) : x.added b' owner first = (x.added b owner first).map f := by
  induction x generalizing owner first with
  | name n | empty => rfl
  | group a ih | star a ih | optional a ih => simp [added, ih, halternative, hname]
  | concat l r ihl ihr | alt l r ihl ihr => simp [added, ihl, ihr, halternative, hname]

theorem desugar_eq (x : Expr) (b : Block) (owner : String) (first : Nat)
    (before : List (Alternative Item)) : x.desugar b owner ⟨first, before⟩ =
      (x.symbols b.name first, ⟨first + x.numbers, before ++ x.added b owner first⟩) := by
  induction x generalizing owner first before with
  | name n => simp [desugar, symbols, numbers, added]
  | empty => simp [desugar, symbols, numbers, added, Desugaring.freshName]
  | group x ih =>
    rw [desugar_group, ih]
    simp [symbols, numbers, added, Desugaring.complete_eq, Nat.add_assoc, Nat.add_comm]
  | concat l r ihl ihr =>
    rw [desugar, ihl]
    dsimp only
    rw [ihr]
    simp [symbols, numbers, added, Nat.add_assoc]
  | alt l r ihl ihr =>
    rw [desugar, ihl]
    dsimp only
    rw [ihr]
    simp [symbols, numbers, added, Desugaring.complete_eq, Nat.add_assoc]
  | star x ih | optional x ih =>
    rw [desugar, ih]
    simp [symbols, numbers, added, Desugaring.complete_eq, Desugaring.freshName, subruleName,
      Nat.add_assoc]

end Expr

@[simp]
theorem Block.name_alternative (b : Block) (owner : String) (is : List Item) :
    (b.alternative owner is).name = owner := rfl

/-- The sub-rules of a block are numbered up to the next block, and its last alternative is completed
last. -/
theorem Block.desugar_eq (b : Block) (first : Nat) : b.desugar first =
    ⟨first + b.body.numbers,
      b.body.added b b.name first ++ [b.alternative b.name (b.body.symbols b.name first)]⟩ := by
  rw [desugar, Expr.desugar_eq]
  rfl

/-! ## Parts -/

/-- A group, a repetition or an option, with the first of the numbers that it takes. -/
structure Part where
  first : Nat
  expr : Expr

namespace Part

/-- The number of the sub-rule: a group takes its own number before those of its contents. -/
def number (p : Part) : Nat :=
  match p.expr with
  | .star a | .optional a => p.first + a.numbers
  | _ => p.first

/-- The name of the sub-rule, in the block called `home`. -/
def name (home : String) (p : Part) : String := subruleName home p.number

/-- The sequences of the sub-rule. A repetition goes on with itself. -/
def sequences (home : String) (p : Part) : List (List Item) :=
  match p.expr with
  | .group a => a.sequences home (p.first + 1)
  | .star a => [a.symbols home p.first ++ [.name (p.name home)], []]
  | .optional a => [a.symbols home p.first, []]
  | _ => []

variable {home : String} {first : Nat} {a : Expr}

@[simp]
theorem name_group : (Part.mk first (.group a)).name home = subruleName home first := rfl

@[simp]
theorem name_star :
    (Part.mk first (.star a)).name home = subruleName home (first + a.numbers) := rfl

@[simp]
theorem name_optional :
    (Part.mk first (.optional a)).name home = subruleName home (first + a.numbers) := rfl

@[simp]
theorem sequences_group :
    (Part.mk first (.group a)).sequences home = a.sequences home (first + 1) := rfl

end Part

/-- The groups, repetitions and options of a right-hand side. -/
def Expr.parts (first : Nat) : Expr → List Part
  | name _ | empty => []
  | group a => ⟨first, group a⟩ :: a.parts (first + 1)
  | concat a b | alt a b => a.parts first ++ b.parts (first + a.numbers)
  | star a => a.parts first ++ [⟨first, star a⟩]
  | optional a => a.parts first ++ [⟨first, optional a⟩]

namespace Expr

variable {P : String → Prop} {top : Bool} {b : Block} {owner home n : String} {first : Nat}
  {x : Expr} {p : Part} {a : Alternative Item}

theorem number_of_mem_parts (hp : p ∈ x.parts first) :
    first ≤ p.number ∧ p.number < first + x.numbers := by
  induction x generalizing first with
  | name n | empty => cases hp
  | group a ih =>
    rcases List.mem_cons.1 hp with rfl | hp
    · simp [Part.number, numbers]
    · have := ih hp
      simp only [numbers]
      omega
  | concat l r ihl ihr | alt l r ihl ihr =>
    simp only [numbers]
    rcases List.mem_append.1 hp with hp | hp
    · have := ihl hp
      omega
    · have := ihr hp
      omega
  | star a ih | optional a ih =>
    simp only [numbers]
    rcases List.mem_append.1 hp with hp | hp
    · have := ih hp
      omega
    · obtain rfl := List.mem_singleton.1 hp
      simp only [Part.number]
      omega

/-- Every part has a number of its own. -/
theorem nodup_numbers_parts (x : Expr) (first : Nat) : ((x.parts first).map Part.number).Nodup := by
  induction x generalizing first with
  | name n | empty => exact .nil
  | group a ih =>
    refine List.nodup_cons.2 ⟨fun hmem => ?_, ih (first + 1)⟩
    obtain ⟨p, hp, hnumber⟩ := List.mem_map.1 hmem
    have := (number_of_mem_parts hp).1
    simp only [Part.number] at this hnumber
    omega
  | concat l r ihl ihr | alt l r ihl ihr =>
    rw [parts, List.map_append, List.nodup_append]
    refine ⟨ihl first, ihr _, fun i hi j hj hij => ?_⟩
    obtain ⟨p, hp, rfl⟩ := List.mem_map.1 hi
    obtain ⟨q, hq, rfl⟩ := List.mem_map.1 hj
    have := (number_of_mem_parts hp).2
    have := (number_of_mem_parts hq).1
    omega
  | star a ih | optional a ih =>
    rw [parts, List.map_append, List.nodup_append]
    refine ⟨ih first, List.nodup_singleton _, fun i hi j hj hij => ?_⟩
    obtain ⟨p, hp, rfl⟩ := List.mem_map.1 hi
    obtain rfl := List.mem_singleton.1 hj
    have := (number_of_mem_parts hp).2
    simp only [Part.number] at this hij
    omega

/-- What has no bars outside groups has one sequence. -/
theorem Grouped.sequences_eq (hx : x.Grouped P false) :
    x.sequences home first = [x.symbols home first] := by
  cases x with
  | alt => cases hx.1
  | _ => rfl

theorem sequences_ne_nil (home : String) (first : Nat) (x : Expr) :
    x.sequences home first ≠ [] := by
  cases x <;> simp [sequences]

/-- A part has alternatives. -/
theorem sequences_ne_nil_of_mem_parts (home : String) (hp : p ∈ x.parts first) :
    p.sequences home ≠ [] := by
  induction x generalizing first with
  | name n | empty => cases hp
  | group a ih =>
    rcases List.mem_cons.1 hp with rfl | hp
    · exact a.sequences_ne_nil home (first + 1)
    · exact ih hp
  | concat l r ihl ihr | alt l r ihl ihr => exact (List.mem_append.1 hp).elim ihl ihr
  | star a ih | optional a ih =>
    rcases List.mem_append.1 hp with hp | hp
    · exact ih hp
    · obtain rfl := List.mem_singleton.1 hp
      exact List.cons_ne_nil _ _

/-- A part is built as the right-hand side is. -/
theorem grouped_of_mem_parts (hx : x.Grouped P top) (hp : p ∈ x.parts first) :
    p.expr.Grouped P true := by
  induction x generalizing top first with
  | name n | empty => cases hp
  | group a ih =>
    rcases List.mem_cons.1 hp with rfl | hp
    · exact hx
    · exact ih hx hp
  | concat l r ihl ihr => exact (List.mem_append.1 hp).elim (ihl hx.1) (ihr hx.2)
  | alt l r ihl ihr => exact (List.mem_append.1 hp).elim (ihl hx.2.1) (ihr hx.2.2)
  | star a ih | optional a ih =>
    rcases List.mem_append.1 hp with hp | hp
    · exact ih hx hp
    · obtain rfl := List.mem_singleton.1 hp
      exact hx

/-- The symbols for a right-hand side have names that are written in it, and those of its parts. -/
theorem name_of_mem_symbols (hx : x.Grouped P top) (hn : .name n ∈ x.symbols home first) :
    P n ∨ ∃ p ∈ x.parts first, n = p.name home := by
  induction x generalizing top first with
  | name m =>
    obtain rfl : n = m := by simpa [symbols] using hn
    exact .inl hx
  | empty => simp [symbols] at hn
  | group a =>
    obtain rfl : n = subruleName home first := by simpa [symbols] using hn
    exact .inr ⟨_, List.mem_cons_self, rfl⟩
  | concat l r ihl ihr =>
    rcases List.mem_append.1 hn with hn | hn
    · exact (ihl hx.1 hn).imp_right fun ⟨p, hp, hname⟩ =>
        ⟨p, List.mem_append_left _ hp, hname⟩
    · exact (ihr hx.2 hn).imp_right fun ⟨p, hp, hname⟩ =>
        ⟨p, List.mem_append_right _ hp, hname⟩
  | alt l r _ ihr =>
    exact (ihr hx.2.2 hn).imp_right fun ⟨p, hp, hname⟩ =>
      ⟨p, List.mem_append_right _ hp, hname⟩
  | star a | optional a =>
    obtain rfl : n = subruleName home (first + a.numbers) := by simpa [symbols] using hn
    exact .inr ⟨_, List.mem_append_right _ List.mem_cons_self, rfl⟩

theorem name_of_mem_sequences (hx : x.Grouped P top) {is : List Item}
    (his : is ∈ x.sequences home first) (hn : .name n ∈ is) :
    P n ∨ ∃ p ∈ x.parts first, n = p.name home := by
  induction x generalizing top first with
  | alt l r ihl =>
    rcases List.mem_append.1 his with his | his
    · exact (ihl hx.2.1 his).imp_right fun ⟨p, hp, hname⟩ =>
        ⟨p, List.mem_append_left _ hp, hname⟩
    · obtain rfl := List.mem_singleton.1 his
      exact (name_of_mem_symbols hx.2.2 hn).imp_right fun ⟨p, hp, hname⟩ =>
        ⟨p, List.mem_append_right _ hp, hname⟩
  | name | empty | group | concat | star | optional =>
    obtain rfl := List.mem_singleton.1 his
    exact name_of_mem_symbols hx hn

/-- What is added within a right-hand side is for the sub-rules of its parts, and for the owner where
alternatives may stand. -/
theorem name_of_mem_added (hx : x.Grouped P top) (ha : a ∈ x.added b owner first) :
    (top = true ∧ a.name = owner) ∨ ∃ p ∈ x.parts first, a.name = p.name b.name := by
  induction x generalizing top owner first with
  | name n | empty => cases ha
  | group x ih =>
    refine .inr ?_
    rcases List.mem_append.1 ha with ha | ha
    · rcases ih hx ha with ⟨-, hname⟩ | ⟨p, hp, hname⟩
      · exact ⟨_, List.mem_cons_self, hname⟩
      · exact ⟨p, List.mem_cons_of_mem _ hp, hname⟩
    · obtain rfl := List.mem_singleton.1 ha
      exact ⟨_, List.mem_cons_self, rfl⟩
  | concat l r ihl ihr =>
    refine .inr ?_
    rcases List.mem_append.1 ha with ha | ha
    · obtain ⟨p, hp, hname⟩ := (ihl hx.1 ha).resolve_left (by simp)
      exact ⟨p, List.mem_append_left _ hp, hname⟩
    · obtain ⟨p, hp, hname⟩ := (ihr hx.2 ha).resolve_left (by simp)
      exact ⟨p, List.mem_append_right _ hp, hname⟩
  | alt l r ihl ihr =>
    obtain ⟨htop, hl, hr⟩ := hx
    simp only [added, List.mem_append, List.mem_singleton] at ha
    rcases ha with (ha | ha) | rfl
    · refine (ihl hl ha).imp (fun h => ⟨htop, h.2⟩) ?_
      rintro ⟨p, hp, hname⟩
      exact ⟨p, List.mem_append_left _ hp, hname⟩
    · obtain ⟨p, hp, hname⟩ := (ihr hr ha).resolve_left (by simp)
      exact .inr ⟨p, List.mem_append_right _ hp, hname⟩
    · exact .inl ⟨htop, rfl⟩
  | star x ih | optional x ih =>
    refine .inr ?_
    simp only [added, List.mem_append, List.mem_cons, List.not_mem_nil, or_false] at ha
    rcases ha with ha | rfl | rfl
    · obtain ⟨p, hp, hname⟩ := (ih hx ha).resolve_left (by simp)
      exact ⟨p, List.mem_append_left _ hp, hname⟩
    · exact ⟨_, List.mem_append_right _ (List.mem_singleton_self _), rfl⟩
    · exact ⟨_, List.mem_append_right _ (List.mem_singleton_self _), rfl⟩

/-- The alternatives that are added have names that are written in the right-hand side, and those of
its parts. -/
theorem name_of_mem_sequence_added (hx : x.Grouped P top) (ha : a ∈ x.added b owner first)
    (hn : .name n ∈ a.sequence) : P n ∨ ∃ p ∈ x.parts first, n = p.name b.name := by
  have widen {ps qs : List Part} (hsubset : ps ⊆ qs)
      (h : P n ∨ ∃ p ∈ ps, n = p.name b.name) : P n ∨ ∃ p ∈ qs, n = p.name b.name :=
    h.imp_right fun ⟨p, hp, hname⟩ => ⟨p, hsubset hp, hname⟩
  induction x generalizing top owner first with
  | name m | empty => cases ha
  | group x ih =>
    refine widen (List.subset_cons_self _ _) ?_
    rcases List.mem_append.1 ha with ha | ha
    · exact ih hx ha
    · obtain rfl := List.mem_singleton.1 ha
      exact name_of_mem_symbols hx hn
  | concat l r ihl ihr =>
    rcases List.mem_append.1 ha with ha | ha
    · exact widen (List.subset_append_left _ _) (ihl hx.1 ha)
    · exact widen (List.subset_append_right _ _) (ihr hx.2 ha)
  | alt l r ihl ihr =>
    simp only [added, List.mem_append, List.mem_singleton] at ha
    rcases ha with (ha | ha) | rfl
    · exact widen (List.subset_append_left _ _) (ihl hx.2.1 ha)
    · exact widen (List.subset_append_right _ _) (ihr hx.2.2 ha)
    · exact widen (List.subset_append_left _ _) (name_of_mem_symbols hx.2.1 hn)
  | star x ih =>
    simp only [added, List.mem_append, List.mem_cons, List.not_mem_nil, or_false] at ha
    rcases ha with ha | rfl | rfl
    · exact widen (List.subset_append_left _ _) (ih hx ha)
    · rcases List.mem_append.1 hn with hn | hn
      · exact widen (List.subset_append_left _ _) (name_of_mem_symbols hx hn)
      · obtain rfl : n = subruleName b.name (first + x.numbers) := by simpa using hn
        exact .inr ⟨_, List.mem_append_right _ List.mem_cons_self, rfl⟩
    · cases hn
  | optional x ih =>
    simp only [added, List.mem_append, List.mem_cons, List.not_mem_nil, or_false] at ha
    refine widen (List.subset_append_left _ _) ?_
    rcases ha with ha | rfl | rfl
    · exact ih hx ha
    · exact name_of_mem_symbols hx hn
    · cases hn

/-- Nothing is added for a name that neither the owner nor a part has. -/
theorem filter_added_eq_nil (hx : x.Grouped P top) (howner : top = true → owner ≠ n)
    (hparts : ∀ p ∈ x.parts first, p.name b.name ≠ n) :
    (x.added b owner first).filter (·.name = n) = [] := by
  rw [List.filter_eq_nil_iff]
  intro a ha hname
  rw [decide_eq_true_eq] at hname
  rcases name_of_mem_added hx ha with ⟨htop, h⟩ | ⟨p, hp, h⟩
  · exact howner htop (h.symm.trans hname)
  · exact hparts p hp (h.symm.trans hname)

/-- Nothing is added for a part whose number the right-hand side does not take. -/
theorem filter_added_of_number (hx : x.Grouped P top) (howner : top = true → owner ≠ p.name b.name)
    (hp : p.number < first ∨ first + x.numbers ≤ p.number) :
    (x.added b owner first).filter (·.name = p.name b.name) = [] := by
  refine filter_added_eq_nil hx howner fun q hq hname => ?_
  have hnumber := number_of_mem_parts hq
  have heq := number_eq_of_subruleName_eq hname
  omega

/-- The alternatives with the name of the owner are those of the right-hand side, in order. -/
theorem filter_added_owner (hx : x.Grouped P top)
    (howner : ∀ j, first ≤ j → owner ≠ subruleName b.name j) :
    (x.added b owner first).filter (·.name = owner) ++
        [b.alternative owner (x.symbols b.name first)] =
      (x.sequences b.name first).map (b.alternative owner) := by
  have hfree (y : Expr) (hy : y.Grouped P false) (m : Nat) (hm : first ≤ m) :
      (y.added b owner m).filter (·.name = owner) = [] :=
    filter_added_eq_nil hy nofun fun p hp hname =>
      howner p.number (hm.trans (number_of_mem_parts hp).1) hname.symm
  induction x generalizing top with
  | alt l r ihl ihr =>
    simp [added, sequences, ← ihl hx.2.1, hfree r hx.2.2 _ (Nat.le_add_right _ _), symbols]
  | name n | empty => rfl
  | group a => simp [hfree a.group hx first le_rfl, sequences]
  | concat l r => simp [hfree (.concat l r) hx first le_rfl, sequences]
  | star a => simp [hfree a.star hx first le_rfl, sequences]
  | optional a => simp [hfree a.optional hx first le_rfl, sequences]

/-- The alternatives with the name of a part are those that are made for it. -/
theorem filter_added_of_part (hx : x.Grouped P top)
    (howner : ∀ j, first ≤ j → owner ≠ subruleName b.name j) (hp : p ∈ x.parts first) :
    (x.added b owner first).filter (·.name = p.name b.name) =
      (p.sequences b.name).map (b.alternative (p.name b.name)) := by
  induction x generalizing top owner first with
  | name n | empty => cases hp
  | group x ih =>
    have hfresh : ∀ j, first + 1 ≤ j → subruleName b.name first ≠ subruleName b.name j := by
      intro j hj h
      have := number_eq_of_subruleName_eq h
      omega
    rcases List.mem_cons.1 hp with rfl | hp
    · show (group x |>.added b owner first).filter (·.name = subruleName b.name first) =
        (x.sequences b.name (first + 1)).map (b.alternative (subruleName b.name first))
      simpa [added] using filter_added_owner (x := x) hx hfresh
    · have hne : subruleName b.name first ≠ p.name b.name := hfresh _ (number_of_mem_parts hp).1
      simp [added, ih hx hfresh hp, hne]
  | concat l r ihl ihr =>
    rcases List.mem_append.1 hp with hp | hp
    · have hnumber := number_of_mem_parts hp
      simp [added, ihl hx.1 howner hp, filter_added_of_number hx.2 nofun (.inl hnumber.2)]
    · have hnumber := number_of_mem_parts hp
      simp [added, ihr hx.2 (fun j hj => howner j (by omega)) hp,
        filter_added_of_number hx.1 nofun (.inr hnumber.1)]
  | alt l r ihl ihr =>
    have hne : owner ≠ p.name b.name := howner p.number (number_of_mem_parts hp).1
    rcases List.mem_append.1 hp with hp | hp
    · have hnumber := number_of_mem_parts hp
      simp [added, ihl hx.2.1 howner hp, filter_added_of_number hx.2.2 nofun (.inl hnumber.2), hne]
    · have hnumber := number_of_mem_parts hp
      simp [added, ihr hx.2.2 (fun j hj => howner j (by omega)) hp,
        filter_added_of_number hx.2.1 (fun _ => hne) (.inr hnumber.1), hne]
  | star x ih | optional x ih =>
    rcases List.mem_append.1 hp with hp | hp
    · have hnumber := (number_of_mem_parts hp).2
      have hne : subruleName b.name (first + x.numbers) ≠ p.name b.name := fun h =>
        absurd (number_eq_of_subruleName_eq h) (Nat.ne_of_gt hnumber)
      simp [added, ih hx howner hp, hne]
    · obtain rfl := List.mem_singleton.1 hp
      have hbefore : (x.added b owner first).filter
          (·.name = subruleName b.name (first + x.numbers)) = [] :=
        filter_added_eq_nil hx nofun fun q hq h =>
          absurd (number_eq_of_subruleName_eq h) (Nat.ne_of_lt (number_of_mem_parts hq).2)
      rw [added, List.filter_append]
      refine (congrArg (· ++ _) hbefore).trans ?_
      simp [Part.sequences]

end Expr

/-! ## Blocks -/

section Blocks

variable {b : Block} {blocks : List Block} {q : Block × Nat} {p : Part} {n : String} {first r : Nat}
  {a : Alternative Item}

theorem Block.Proper.name_ne (h : b.Proper) (home : String) (k : Nat) :
    b.name ≠ subruleName home k := fun hname => h.1 (hname ▸ braced_subruleName home k)

theorem Block.name_of_mem_desugar (h : b.Proper) (ha : a ∈ (b.desugar first).alternatives) :
    a.name = b.name ∨ ∃ p ∈ b.body.parts first, a.name = p.name b.name := by
  rw [desugar_eq] at ha
  rcases List.mem_append.1 ha with ha | ha
  · exact (Expr.name_of_mem_added h.2 ha).imp_left And.right
  · obtain rfl := List.mem_singleton.1 ha
    exact .inl rfl

theorem Block.name_of_mem_sequence_desugar {P : String → Prop} (h : b.body.Grouped P true)
    (ha : a ∈ (b.desugar first).alternatives) (hn : .name n ∈ a.sequence) :
    P n ∨ ∃ p ∈ b.body.parts first, n = p.name b.name := by
  rw [desugar_eq] at ha
  rcases List.mem_append.1 ha with ha | ha
  · exact Expr.name_of_mem_sequence_added h ha hn
  · obtain rfl := List.mem_singleton.1 ha
    exact Expr.name_of_mem_symbols h hn

/-- The alternatives of a block with its own name are those of its right-hand side. -/
theorem Block.filter_desugar_own (h : b.Proper) (first : Nat) :
    (b.desugar first).alternatives.filter (·.name = b.name) =
      (b.body.sequences b.name first).map (b.alternative b.name) := by
  rw [desugar_eq, List.filter_append, ← Expr.filter_added_owner h.2 fun j _ => h.name_ne b.name j]
  simp

theorem Block.filter_desugar_of_part (h : b.Proper) (hp : p ∈ b.body.parts first) :
    (b.desugar first).alternatives.filter (·.name = p.name b.name) =
      (p.sequences b.name).map (b.alternative (p.name b.name)) := by
  have hne : b.name ≠ p.name b.name := h.name_ne b.name p.number
  rw [desugar_eq, List.filter_append,
    Expr.filter_added_of_part h.2 (fun j _ => h.name_ne b.name j) hp]
  simp [hne]

theorem allAlternatives_eq (blocks : List Block) : allAlternatives blocks =
    (numbered 1 blocks).flatMap fun q => (q.1.desugar q.2).alternatives := by
  rw [allAlternatives, desugarEach_eq, List.flatMap_map]

/-- Among the alternatives of all blocks, those with the name of a block are those of the right-hand
sides of the blocks with that name, block by block. -/
theorem filter_allAlternatives_of_name (h : ∀ b ∈ blocks, b.Proper) (hn : ¬ Braced n) :
    (allAlternatives blocks).filter (·.name = n) =
      ((numbered 1 blocks).filter (·.1.name = n)).flatMap fun q =>
        (q.1.body.sequences n q.2).map (q.1.alternative n) := by
  have hproper : ∀ q ∈ numbered 1 blocks, q.1.Proper := fun q hq => h q.1 (mem_of_mem_numbered hq)
  rw [allAlternatives_eq, List.filter_flatMap]
  generalize numbered 1 blocks = qs at hproper
  induction qs with
  | nil => rfl
  | cons q qs ih =>
    obtain ⟨hq, hqs⟩ := List.forall_mem_cons.1 hproper
    rw [List.flatMap_cons, ih hqs]
    by_cases hname : q.1.name = n
    · subst hname
      simp [Block.filter_desugar_own hq]
    · -- The block gives alternatives with its own name, and with names that hold a brace.
      have hnone : (q.1.desugar q.2).alternatives.filter (·.name = n) = [] := by
        rw [List.filter_eq_nil_iff]
        intro a ha han
        rw [decide_eq_true_eq] at han
        rcases Block.name_of_mem_desugar hq ha with hown | ⟨p, -, hp⟩
        · exact hname (hown.symm.trans han)
        · exact hn (han ▸ hp ▸ braced_subruleName _ _)
      rw [hnone, List.filter_cons_of_neg (by simpa using hname), List.nil_append]

/-- Among the alternatives of all blocks, those with the name of a part are those made for it. -/
theorem filter_allAlternatives_of_part (h : ∀ b ∈ blocks, b.Proper) (hq : q ∈ numbered 1 blocks)
    (hp : p ∈ q.1.body.parts q.2) :
    (allAlternatives blocks).filter (·.name = p.name q.1.name) =
      (p.sequences q.1.name).map (q.1.alternative (p.name q.1.name)) := by
  have hproper : ∀ c ∈ numbered 1 blocks, c.1.Proper := fun c hc => h c.1 (mem_of_mem_numbered hc)
  have hpairwise := (numbered_pairwise h 1).2
  have hnumber := Expr.number_of_mem_parts hp
  have hnone (c : Block × Nat) (hc : c ∈ numbered 1 blocks)
      (hapart : p.number < c.2 ∨ (c.1.desugar c.2).nextNumber ≤ p.number) :
      (c.1.desugar c.2).alternatives.filter (·.name = p.name q.1.name) = [] := by
    rw [List.filter_eq_nil_iff]
    intro a ha hname
    rw [decide_eq_true_eq] at hname
    rcases Block.name_of_mem_desugar (hproper c hc) ha with hown | ⟨p', hp', hown⟩
    · exact (hproper c hc).name_ne _ _ (hown.symm.trans hname)
    · have heq := number_eq_of_subruleName_eq (hown.symm.trans hname)
      have hnumber' := Expr.number_of_mem_parts hp'
      rw [Block.desugar_eq] at hapart
      dsimp only at hapart
      omega
  obtain ⟨before, after, hsplit⟩ := List.append_of_mem hq
  rw [hsplit, List.pairwise_append, List.pairwise_cons] at hpairwise
  obtain ⟨-, ⟨hafter, -⟩, hbefore⟩ := hpairwise
  have hleft : before.flatMap (fun c => (c.1.desugar c.2).alternatives.filter
      (·.name = p.name q.1.name)) = [] := by
    refine List.flatMap_eq_nil_iff.2 fun c hc => hnone c (by simp [hsplit, hc]) (.inr ?_)
    exact (hbefore c hc q List.mem_cons_self).trans hnumber.1
  have hright : after.flatMap (fun c => (c.1.desugar c.2).alternatives.filter
      (·.name = p.name q.1.name)) = [] := by
    refine List.flatMap_eq_nil_iff.2 fun c hc => hnone c (by simp [hsplit, hc]) (.inl ?_)
    have hle := hafter c hc
    rw [Block.desugar_eq] at hle
    exact hnumber.2.trans_le hle
  rw [allAlternatives_eq, List.filter_flatMap, hsplit, List.flatMap_append, List.flatMap_cons, hleft,
    hright, List.nil_append, List.append_nil, Block.filter_desugar_of_part (hproper q hq) hp]

theorem map_fst_numbered (first : Nat) (blocks : List Block) :
    (numbered first blocks).map (·.1) = blocks := by
  induction blocks generalizing first with
  | nil => rfl
  | cons b blocks ih => rw [numbered, List.map_cons, ih]

/-- The symbol that stands for an item is written as the item. -/
theorem item_symbolOf (eof : String) (texts : RuleTexts) (i : Item) :
    (symbolOf eof texts i).item = i := by
  rcases symbolOf_cases eof texts i with ⟨rfl, hs⟩ | ⟨m, id, rfl, -, hs⟩ | ⟨m, id, rfl, -, hs⟩ <;>
    rw [hs] <;> rfl

theorem map_snd_zipIdx {α β : Type} (l : List α) (start : Nat) (f : α → β) :
    ((l.zipIdx start).map fun x => (x.2, f x.1)).map (·.2) = l.map f := by
  conv_rhs => rw [← List.zipIdx_map_fst start l, List.map_map]
  rw [List.map_map]
  rfl

/-- The rule with the name number `r` has the alternatives of that name, in order. -/
theorem map_alternativesOf_desugarBlocks (eof : String)
    (hr : ((desugarBlocks blocks).map (·.1))[r]? = some n) :
    ((RuleSet.ofTexts eof (desugarBlocks blocks)).alternativesOf r).map (·.2) =
      ((allAlternatives blocks).filter (·.name = n)).map
        (Alternative.map (symbolOf eof (desugarBlocks blocks))) := by
  obtain ⟨start, halternatives⟩ := RuleSet.alternativesOf_ofTexts eof (desugarBlocks blocks) r
  rw [halternatives, getElem?_desugarBlocks hr]
  exact map_snd_zipIdx _ start _

theorem symbolOf_of_idxOf? {texts : RuleTexts} (eof : String)
    (hr : (texts.map (·.1)).idxOf? n = some r) : symbolOf eof texts (.name n) = .rule n r := by
  simp [symbolOf, resolve, hr]

theorem getElem?_of_idxOf? {names : List String} (hr : names.idxOf? n = some r) :
    names[r]? = some n := by
  obtain ⟨hlt, hget, -⟩ := List.idxOf?_eq_some_iff.1 hr
  rw [List.getElem?_eq_getElem hlt, hget]

theorem exists_idxOf?_of_mem {names : List String} (hn : n ∈ names) : ∃ r, names.idxOf? n = some r :=
  Option.ne_none_iff_exists'.1 fun h => List.idxOf?_eq_none_iff.1 h hn

/-- A block has a rule. -/
theorem exists_idxOf?_of_block (hb : b ∈ blocks) :
    ∃ r, ((desugarBlocks blocks).map (·.1)).idxOf? b.name = some r :=
  exists_idxOf?_of_mem (mem_names_iff.2 (.inl ⟨b, hb, rfl⟩))

/-- A part has a rule. -/
theorem exists_idxOf?_of_part (h : ∀ b ∈ blocks, b.Proper) (hq : q ∈ numbered 1 blocks)
    (hp : p ∈ q.1.body.parts q.2) :
    ∃ r, ((desugarBlocks blocks).map (·.1)).idxOf? (p.name q.1.name) = some r := by
  obtain ⟨is, his⟩ := List.exists_mem_of_ne_nil _ (Expr.sequences_ne_nil_of_mem_parts q.1.name hp)
  have ha : q.1.alternative (p.name q.1.name) is ∈
      (allAlternatives blocks).filter (·.name = p.name q.1.name) :=
    filter_allAlternatives_of_part h hq hp ▸ List.mem_map_of_mem his
  exact exists_idxOf?_of_mem (mem_names_iff.2 (.inr ⟨_, (List.mem_filter.1 ha).1, rfl⟩))

/-- The alternatives of the rule of a part are those made for the part. -/
theorem sequences_of_part (h : ∀ b ∈ blocks, b.Proper) (hq : q ∈ numbered 1 blocks)
    (hp : p ∈ q.1.body.parts q.2)
    (hr : ((desugarBlocks blocks).map (·.1)).idxOf? (p.name q.1.name) = some r) (eof : String) :
    ((RuleSet.ofTexts eof (desugarBlocks blocks)).alternativesOf r).map (·.2.sequence) =
      (p.sequences q.1.name).map (List.map (symbolOf eof (desugarBlocks blocks))) := by
  have halternatives := map_alternativesOf_desugarBlocks eof (getElem?_of_idxOf? hr)
  rw [filter_allAlternatives_of_part h hq hp] at halternatives
  have hmap := congrArg (List.map (·.sequence)) halternatives
  rw [List.map_map, List.map_map, List.map_map] at hmap
  exact hmap

end Blocks

end Predictive.Grammar
