import Predictive.Precedence
import Predictive.Proofs.Except

/-!
# Evaluation follows precedence

`Interpretation.Reads` says which value a row of operands, operators and groups has, where tighter
operators are applied first and equal ones from left to right. Evaluation on a stack gives that value
(`Interpretation.complete_of_reads`), and gives no other, as long as no two operands stand side by
side (`Interpretation.reads_of_complete`).
-/

namespace Predictive.Precedence

variable {α ω ε : Type}

/-- What an operator does to its operands. -/
inductive Meaning (α : Type)
  /-- Stands after its operand. -/
  | after (f : α → α)
  /-- Stands between its operands. -/
  | between (f : α → α → α)

/-- A part of an expression. -/
inductive Item (α ω : Type)
  | operand (a : α)
  | operator (op : ω)
  | openGroup
  | closeGroup

/-- What the operators and groups of an expression stand for. Operators after their operand bind
equally tightly, and tighter than all others. -/
structure Interpretation (A : Algebra α ω ε) where
  /-- What an operator does. -/
  meaning : ω → Meaning α
  /-- The operands that a group leaves, given those inside. -/
  close : List α → Except ε (List α)
  /-- How tightly the operators after their operand bind. -/
  top : Nat
  precedence_after : ∀ {op f}, meaning op = .after f → A.precedence op = top
  precedence_between : ∀ {op f}, meaning op = .between f → A.precedence op < top
  apply_after_iff : ∀ {op f operands result}, meaning op = .after f →
    (A.apply op operands = .ok result ↔ ∃ a rest, operands = a :: rest ∧ result = f a :: rest)
  apply_between_iff : ∀ {op f operands result}, meaning op = .between f →
    (A.apply op operands = .ok result ↔
      ∃ a b rest, operands = b :: a :: rest ∧ result = f a b :: rest)
  close_nil : ∀ {result}, close [] = .ok result → ∃ c, result = [c]
  close_singleton : ∀ {a result}, close [a] = .ok result → ∃ c, result = [c]

namespace Interpretation

variable {A : Algebra α ω ε} (I : Interpretation A)

/-- The item begins an operand. -/
def begins : Item α ω → Bool
  | .operand _ | .openGroup => true
  | .operator _ | .closeGroup => false

/-- The item completes an operand. -/
def completes : Item α ω → Bool
  | .operand _ | .closeGroup => true
  | .openGroup => false
  | .operator op =>
    match I.meaning op with
    | .after _ => true
    | .between _ => false

/-- Puts an item on the stack. -/
def feed (s : Stack α ω) : Item α ω → Except ε (Stack α ω)
  | .operand a => .ok (s.addOperand a)
  | .operator op => s.addOperator A op
  | .openGroup => .ok s.enter
  | .closeGroup => do
    let (inner, s) ← s.leave A
    return s.addOperands (← I.close inner)

/-- Puts items on the stack, from left to right. -/
def run (s : Stack α ω) (items : List (Item α ω)) : Except ε (Stack α ω) := items.foldlM I.feed s

/-- The items are an expression of the given value, the operators of which bind at least as tightly
as `n` outside groups. -/
inductive Reads : Nat → List (Item α ω) → α → Prop
  | operand (a : α) : Reads (I.top + 1) [.operand a] a
  | hollow {c : α} : I.close [] = .ok [c] → Reads (I.top + 1) [.openGroup, .closeGroup] c
  | group {items : List (Item α ω)} {a c : α} : I.close [a] = .ok [c] → Reads 0 items a →
      Reads (I.top + 1) (.openGroup :: items ++ [.closeGroup]) c
  | after {items : List (Item α ω)} {op : ω} {f : α → α} {a : α} : I.meaning op = .after f →
      Reads I.top items a → Reads I.top (items ++ [.operator op]) (f a)
  | between {left right : List (Item α ω)} {op : ω} {f : α → α → α} {a b : α} :
      I.meaning op = .between f → Reads (A.precedence op) left a →
      Reads (A.precedence op + 1) right b →
      Reads (A.precedence op) (left ++ .operator op :: right) (f a b)
  | looser {m n : Nat} {items : List (Item α ω)} {a : α} : m ≤ n → Reads n items a →
      Reads m items a

variable {I}

theorem run_append {s t : Stack α ω} {left right : List (Item α ω)} (h : I.run s left = .ok t) :
    I.run s (left ++ right) = I.run t right := by
  rw [run, List.foldlM_append, ← run, h]
  rfl

theorem run_cons {s t : Stack α ω} {item : Item α ω} {items : List (Item α ω)}
    (h : I.feed s item = .ok t) : I.run s (item :: items) = I.run t items := by
  rw [run, List.foldlM_cons, h]
  rfl

theorem run_singleton {s : Stack α ω} {item : Item α ω} : I.run s [item] = I.feed s item := by
  rw [run, List.foldlM_cons]
  exact bind_pure _

/-! ## Applying operators -/

theorem reduce_of_lt {least : Nat} {operators : List ω} {operands : List α}
    (h : ∀ op ∈ operators, A.precedence op < least) :
    A.reduce least operators operands = .ok { operands, operators } := by
  cases operators with
  | nil => rfl
  | cons op operators => exact if_pos (h op List.mem_cons_self)

theorem reduce_after {op : ω} {f : α → α} {least : Nat} {operators : List ω} {a : α}
    {operands : List α} (hop : I.meaning op = .after f) (hleast : least ≤ I.top) :
    A.reduce least (op :: operators) (a :: operands) =
      A.reduce least operators (f a :: operands) := by
  have hprecedence := I.precedence_after hop
  rw [Algebra.reduce, if_neg (by omega), (I.apply_after_iff hop).2 ⟨a, operands, rfl, rfl⟩]
  rfl

theorem reduce_between {op : ω} {f : α → α → α} {least : Nat} {operators : List ω} {a b : α}
    {operands : List α} (hop : I.meaning op = .between f) (hleast : least ≤ A.precedence op) :
    A.reduce least (op :: operators) (b :: a :: operands) =
      A.reduce least operators (f a b :: operands) := by
  rw [Algebra.reduce, if_neg (by omega), (I.apply_between_iff hop).2 ⟨a, b, operands, rfl, rfl⟩]
  rfl

/-- Applying all operators is applying those that bind at least as tightly as none. -/
theorem settle_eq (f : Frame α ω) :
    A.settle f = (A.reduce 0 f.operators f.operands).map (·.operands) := by
  obtain ⟨operands, operators⟩ := f
  rw [Algebra.settle]
  induction operators generalizing operands with
  | nil => rfl
  | cons op operators ih =>
    rw [Algebra.reduce, if_neg (Nat.not_lt_zero _), List.foldlM_cons]
    cases A.apply op operands with
    | error e => rfl
    | ok operands => exact ih operands

theorem feed_operator {f : Frame α ω} {outer : List (Frame α ω)} {op : ω} {operands : List α}
    {operators : List ω}
    (h : A.reduce (A.precedence op) f.operators f.operands = .ok { operands, operators }) :
    I.feed { inner := f, outer } (.operator op) =
      .ok { inner := { operands, operators := op :: operators }, outer } := by
  rw [feed, Stack.addOperator, h]
  rfl

theorem feed_closeGroup {f g : Frame α ω} {outer : List (Frame α ω)} {operands result : List α}
    (hsettle : A.settle f = .ok operands) (hclose : I.close operands = .ok result) :
    I.feed { inner := f, outer := g :: outer } .closeGroup =
      .ok { inner := { g with operands := result ++ g.operands }, outer } := by
  rw [feed, Stack.leave, hsettle]
  show I.close operands >>= _ = _
  rw [hclose]
  rfl

/-! ## Evaluation gives the value -/

/-- After an expression the stack is as good as with its value in place of it, for operators that
bind no tighter than it. -/
theorem run_of_reads {n : Nat} {items : List (Item α ω)} {a : α} (h : I.Reads n items a)
    (s : Stack α ω) (hs : ∀ op ∈ s.inner.operators, A.precedence op < n) :
    ∃ f : Frame α ω, I.run s items = .ok { inner := f, outer := s.outer } ∧
      ∀ least ≤ n, A.reduce least f.operators f.operands =
        A.reduce least s.inner.operators (a :: s.inner.operands) := by
  induction h generalizing s with
  | operand a => exact ⟨_, rfl, fun _ _ => rfl⟩
  | @hollow c hclose =>
    refine ⟨{ s.inner with operands := c :: s.inner.operands }, ?_, fun _ _ => rfl⟩
    rw [run_cons (t := s.enter) rfl, run_singleton]
    exact feed_closeGroup rfl hclose
  | @group items a c hclose _ ih =>
    refine ⟨{ s.inner with operands := c :: s.inner.operands }, ?_, fun _ _ => rfl⟩
    obtain ⟨f, hrun, hreduce⟩ := ih s.enter (fun op hop => absurd hop List.not_mem_nil)
    have hsettle : A.settle f = .ok [a] := by
      rw [settle_eq, hreduce 0 (Nat.le_refl 0)]
      rfl
    rw [List.cons_append, run_cons (t := s.enter) rfl, run_append hrun, run_singleton]
    exact feed_closeGroup hsettle hclose
  | @after items op g a hop _ ih =>
    obtain ⟨f, hrun, hreduce⟩ := ih s hs
    have hprecedence := I.precedence_after hop
    refine ⟨{ operands := a :: s.inner.operands, operators := op :: s.inner.operators }, ?_,
      fun least hleast => reduce_after hop hleast⟩
    rw [run_append hrun, run_singleton]
    refine feed_operator ?_
    rw [hprecedence, hreduce _ (Nat.le_refl _), reduce_of_lt hs]
  | @between left right op g a b hop _ _ ihleft ihright =>
    obtain ⟨f, hrun, hreduce⟩ := ihleft s hs
    obtain ⟨f', hrun', hreduce'⟩ := ihright
      { s with inner := { operands := a :: s.inner.operands, operators := op :: s.inner.operators } }
      (fun op' hop' => by
        rcases List.mem_cons.1 hop' with rfl | hop'
        · exact Nat.lt_succ_self _
        · exact Nat.lt_succ_of_lt (hs op' hop'))
    refine ⟨f', ?_, fun least hleast => ?_⟩
    · rw [run_append hrun, ← hrun']
      refine run_cons (feed_operator ?_)
      rw [hreduce _ (Nat.le_refl _), reduce_of_lt hs]
    · rw [hreduce' least (Nat.le_succ_of_le hleast)]
      exact reduce_between hop hleast
  | looser hmn _ ih =>
    obtain ⟨f, hrun, hreduce⟩ := ih s fun op hop => Nat.lt_of_lt_of_le (hs op hop) hmn
    exact ⟨f, hrun, fun least hleast => hreduce least (Nat.le_trans hleast hmn)⟩

/-- Evaluation of an expression gives its value. -/
theorem complete_of_reads {items : List (Item α ω)} {a : α} (h : I.Reads 0 items a) :
    ∃ s, I.run {} items = .ok s ∧ s.complete A = .ok [a] := by
  obtain ⟨f, hrun, hreduce⟩ := run_of_reads h {} fun op hop => absurd hop List.not_mem_nil
  refine ⟨_, hrun, ?_⟩
  rw [Stack.complete, settle_eq, hreduce 0 (Nat.le_refl 0)]
  rfl

/-! ## Evaluation gives no other value -/

/-- The number of operators that stand between operands. -/
def betweens (I : Interpretation A) (operators : List ω) : Nat :=
  operators.countP fun op => !I.completes (.operator op)

theorem completes_after {op : ω} {f : α → α} (hop : I.meaning op = .after f) :
    I.completes (.operator op) = true := by
  rw [completes, hop]

theorem completes_between {op : ω} {f : α → α → α} (hop : I.meaning op = .between f) :
    I.completes (.operator op) = false := by
  rw [completes, hop]

/-- Operators after their operand bind tighter than those between operands. -/
theorem precedence_lt {op op' : ω} (h : I.completes (.operator op) = true)
    (h' : I.completes (.operator op') = false) : A.precedence op' < A.precedence op := by
  cases hop : I.meaning op with
  | between f => exact absurd h (Bool.eq_false_iff.1 (completes_between hop))
  | after f =>
    cases hop' : I.meaning op' with
    | after g => exact absurd (completes_after hop') (Bool.eq_false_iff.1 h')
    | between g =>
      rw [I.precedence_after hop]
      exact I.precedence_between hop'

theorem betweens_cons (op : ω) (operators : List ω) :
    I.betweens (op :: operators) =
      I.betweens operators + (!I.completes (.operator op)).toNat := by
  rw [betweens, List.countP_cons]
  cases I.completes (.operator op) <;> rfl

theorem length_of_apply {op : ω} {operands result : List α} (h : A.apply op operands = .ok result) :
    result.length + (!I.completes (.operator op)).toNat = operands.length ∧ 0 < result.length := by
  cases hop : I.meaning op with
  | after f =>
    obtain ⟨a, rest, rfl, rfl⟩ := (I.apply_after_iff hop).1 h
    simp [completes_after hop]
  | between f =>
    obtain ⟨a, b, rest, rfl, rfl⟩ := (I.apply_between_iff hop).1 h
    simp [completes_between hop]

/-- Every operator between operands that is applied takes away one of them. -/
theorem length_of_reduce {least : Nat} {operators : List ω} {operands : List α} {f : Frame α ω}
    (h : A.reduce least operators operands = .ok f) :
    f.operands.length + I.betweens operators = operands.length + I.betweens f.operators := by
  induction operators generalizing operands with
  | nil =>
    cases h
    rfl
  | cons op operators ih =>
    rw [Algebra.reduce] at h
    split at h
    · cases h
      rfl
    · obtain ⟨result, happly, h⟩ := bind_eq_ok_iff.1 h
      have hlength := (length_of_apply (I := I) happly).1
      have := ih h
      rw [betweens_cons]
      omega

theorem reduce_zero {operators : List ω} {operands : List α} {f : Frame α ω}
    (I : Interpretation A) (h : A.reduce 0 operators operands = .ok f) :
    f.operators = [] ∧ (operators ≠ [] → 0 < f.operands.length) := by
  induction operators generalizing operands with
  | nil =>
    cases h
    exact ⟨rfl, fun h => absurd rfl h⟩
  | cons op operators ih =>
    rw [Algebra.reduce, if_neg (Nat.not_lt_zero _)] at h
    obtain ⟨result, happly, h⟩ := bind_eq_ok_iff.1 h
    obtain ⟨hnil, hpos⟩ := ih h
    refine ⟨hnil, fun _ => ?_⟩
    by_cases hoperators : operators = []
    · subst hoperators
      cases h
      exact (length_of_apply (I := I) happly).2
    · exact hpos hoperators

/-- All operators can be applied only if there is an operand more than operators between operands. -/
theorem betweens_lt_of_settle {f : Frame α ω} {operands : List α} (h : A.settle f = .ok operands)
    (hf : f.operators ≠ []) : I.betweens f.operators < f.operands.length := by
  rw [settle_eq] at h
  obtain ⟨g, hreduce, -⟩ := map_eq_ok_iff.1 h
  obtain ⟨hnil, hpos⟩ := reduce_zero I hreduce
  have hlength := length_of_reduce (I := I) hreduce
  rw [hnil] at hlength
  have : I.betweens [] = 0 := rfl
  have := hpos hf
  omega

/-- The operands and operators of `items`, which end where an operand is due. Each operator has its
left operand, and binds tighter than those before it. -/
inductive Holds (I : Interpretation A) : List α → List ω → List (Item α ω) → Prop
  | nil : Holds I [] [] []
  | cons {operands : List α} {operators : List ω} {items left : List (Item α ω)} {op : ω}
      {f : α → α → α} {a : α} : Holds I operands operators items →
      (∀ op' ∈ operators, A.precedence op' < A.precedence op) → I.meaning op = .between f →
      I.Reads (A.precedence op) left a →
      Holds I (a :: operands) (op :: operators) (items ++ left ++ [.operator op])

theorem Holds.length_eq {operands : List α} {operators : List ω} {items : List (Item α ω)}
    (h : I.Holds operands operators items) : operands.length = I.betweens operators := by
  induction h with
  | nil => rfl
  | cons _ _ hop _ ih => simp [betweens_cons, completes_between hop, ih]

theorem Holds.lt_top {operands : List α} {operators : List ω} {items : List (Item α ω)}
    (h : I.Holds operands operators items) : ∀ op ∈ operators, A.precedence op < I.top := by
  induction h with
  | nil => exact fun op hop => absurd hop List.not_mem_nil
  | cons _ _ hop _ ih =>
    intro op' hop'
    rcases List.mem_cons.1 hop' with rfl | hop'
    · exact I.precedence_between hop
    · exact ih op' hop'

/-- The group holds `items`, which end in an operand the operators of which bind at least as tightly
as `n`, while all operators that wait bind looser. -/
def Stands (I : Interpretation A) (n : Nat) (f : Frame α ω) (items : List (Item α ω)) : Prop :=
  ∃ operands operators before last a, f = { operands := a :: operands, operators } ∧
    I.Holds operands operators before ∧ I.Reads n last a ∧ items = before ++ last ∧
    ∀ op ∈ operators, A.precedence op < n

theorem Stands.reduce {n least : Nat} {f : Frame α ω} {items : List (Item α ω)}
    (h : I.Stands n f items) (hleast : least ≤ n) :
    ∃ g, A.reduce least f.operators f.operands = .ok g ∧ I.Stands least g items := by
  obtain ⟨operands, operators, before, last, a, rfl, hholds, hlast, rfl, hlt⟩ := h
  induction hholds generalizing n last a with
  | nil =>
    exact ⟨_, rfl, [], [], [], last, a, rfl, .nil, .looser hleast hlast, rfl,
      fun op hop => absurd hop List.not_mem_nil⟩
  | @cons operands operators items left op g b hholds htighter hop hleft ih =>
    by_cases hstop : A.precedence op < least
    · refine ⟨_, if_pos hstop, b :: operands, op :: operators, _, last, a, rfl,
        .cons hholds htighter hop hleft, .looser hleast hlast, rfl, fun op' hop' => ?_⟩
      rcases List.mem_cons.1 hop' with rfl | hop'
      · exact hstop
      · exact Nat.lt_trans (htighter op' hop') hstop
    · have hle : least ≤ A.precedence op := Nat.le_of_not_lt hstop
      obtain ⟨g', hreduce, hstands⟩ := ih hle _ _
        (.between hop hleft (.looser (hlt op List.mem_cons_self) hlast)) htighter
      refine ⟨g', (reduce_between hop hle).trans hreduce, ?_⟩
      simpa using hstands

/-- The group holds `items`, which end in an operand, with at most one operator after it that waits. -/
inductive Ended (I : Interpretation A) : Frame α ω → List (Item α ω) → Prop
  | stands {f : Frame α ω} {items : List (Item α ω)} : I.Stands I.top f items → Ended I f items
  | waits {f : Frame α ω} {items : List (Item α ω)} {op : ω} {g : α → α} :
      I.Stands I.top f items → I.meaning op = .after g →
      Ended I { f with operators := op :: f.operators } (items ++ [.operator op])

theorem Ended.reduce {f : Frame α ω} {items : List (Item α ω)} (h : I.Ended f items) {least : Nat}
    (hleast : least ≤ I.top) :
    ∃ g, A.reduce least f.operators f.operands = .ok g ∧ I.Stands least g items := by
  cases h with
  | stands hstands => exact hstands.reduce hleast
  | @waits f items op g hstands hop =>
    obtain ⟨operands, operators, before, last, a, rfl, hholds, hlast, rfl, hlt⟩ := hstands
    obtain ⟨f', hreduce, hstands'⟩ := Stands.reduce (I := I) (n := I.top)
      ⟨operands, operators, before, _, _, rfl, hholds, .after hop hlast, rfl, hlt⟩ hleast
    refine ⟨f', (reduce_after hop hleast).trans hreduce, ?_⟩
    simpa using hstands'

/-- What a group holds after `items`, and whether these end in an operand. Once an operand is
missing, one is missing until the group ends. -/
inductive Progress (I : Interpretation A) : Bool → Frame α ω → List (Item α ω) → Prop
  | awaits {operands : List α} {operators : List ω} {items : List (Item α ω)} :
      I.Holds operands operators items → Progress I false { operands, operators } items
  | ended {f : Frame α ω} {items : List (Item α ω)} : I.Ended f items → Progress I true f items
  | lacks {ended : Bool} {f : Frame α ω} {items : List (Item α ω)} : f.operators ≠ [] →
      f.operands.length < I.betweens f.operators + ended.toNat → Progress I ended f items

theorem Progress.operand {f : Frame α ω} {items last : List (Item α ω)} {a : α}
    (h : I.Progress false f items) (hlast : I.Reads (I.top + 1) last a) :
    I.Progress true { f with operands := a :: f.operands } (items ++ last) := by
  cases h with
  | awaits hholds =>
    exact .ended (.stands ⟨_, _, items, last, a, rfl, hholds, .looser (Nat.le_succ _) hlast, rfl,
      hholds.lt_top⟩)
  | lacks hne hlength =>
    refine .lacks hne ?_
    simp only [Bool.toNat_false, List.length_cons, Bool.toNat_true] at hlength ⊢
    omega

/-- Another operator where too few operands have been read does not supply them. -/
theorem Progress.lacks_operator {f g : Frame α ω} {items : List (Item α ω)} {op : ω}
    (hreduce : A.reduce (A.precedence op) f.operators f.operands = .ok g)
    (h : f.operands.length ≤ I.betweens f.operators) :
    I.Progress (I.completes (.operator op)) { g with operators := op :: g.operators } items := by
  have hlength := length_of_reduce (I := I) hreduce
  refine .lacks (List.cons_ne_nil _ _) ?_
  rw [betweens_cons]
  cases I.completes (.operator op) <;> simp only [Bool.toNat_false, Bool.toNat_true,
    Bool.not_false, Bool.not_true] <;> omega

theorem Progress.operator {ended : Bool} {f g : Frame α ω} {items : List (Item α ω)} {op : ω}
    (h : I.Progress ended f items)
    (hreduce : A.reduce (A.precedence op) f.operators f.operands = .ok g) :
    I.Progress (I.completes (.operator op)) { g with operators := op :: g.operators }
      (items ++ [.operator op]) := by
  cases h with
  | awaits hholds => exact .lacks_operator hreduce (Nat.le_of_eq hholds.length_eq)
  | lacks hne hlength =>
    have := Bool.toNat_le ended
    exact .lacks_operator hreduce (by omega)
  | ended hended =>
    cases hop : I.meaning op with
    | after a =>
      obtain ⟨g', hreduce', hstands⟩ := hended.reduce (Nat.le_of_eq (I.precedence_after hop))
      obtain rfl : g = g' := Except.ok.inj (hreduce.symm.trans hreduce')
      rw [I.precedence_after hop] at hstands
      rw [completes_after hop]
      exact .ended (.waits hstands hop)
    | between a =>
      obtain ⟨g', hreduce', hstands⟩ := hended.reduce (Nat.le_of_lt (I.precedence_between hop))
      obtain rfl : g = g' := Except.ok.inj (hreduce.symm.trans hreduce')
      obtain ⟨operands, operators, before, last, a, rfl, hholds, hlast, rfl, hlt⟩ := hstands
      rw [completes_between hop]
      exact .awaits (.cons hholds hlt hop hlast)

theorem Progress.settle {ended : Bool} {f : Frame α ω} {items : List (Item α ω)}
    {operands : List α} (h : I.Progress ended f items) (hsettle : A.settle f = .ok operands) :
    (items = [] ∧ operands = []) ∨ ∃ a, operands = [a] ∧ I.Reads 0 items a := by
  have hlacks := betweens_lt_of_settle (I := I) hsettle
  cases h with
  | @awaits _ operators _ hholds =>
    cases operators with
    | nil =>
      cases hholds
      exact .inl ⟨rfl, (Except.ok.inj hsettle).symm⟩
    | cons op operators =>
      exact absurd hholds.length_eq (Nat.ne_of_gt (hlacks (List.cons_ne_nil _ _)))
  | ended hended =>
    obtain ⟨g, hreduce, _, operators, before, last, a, rfl, hholds, hlast, rfl, hlt⟩ :=
      hended.reduce (Nat.zero_le _)
    rw [settle_eq, hreduce] at hsettle
    obtain rfl := List.eq_nil_iff_forall_not_mem.2 fun op hop => Nat.not_lt_zero _ (hlt op hop)
    cases hholds
    exact .inr ⟨a, (Except.ok.inj hsettle).symm, hlast⟩
  | lacks hne hlength =>
    have := hlacks hne
    have := Bool.toNat_le ended
    omega

/-- The items of the groups that are open around the innermost, and the frames in which they wait. -/
inductive Nested (I : Interpretation A) : List (Frame α ω) → List (Item α ω) → Prop
  | nil : Nested I [] []
  | cons {outer : List (Frame α ω)} {before items : List (Item α ω)} {f : Frame α ω} :
      Nested I outer before → I.Progress false f items →
      Nested I (f :: outer) (before ++ items ++ [.openGroup])

/-- The stack holds `items`, and whether these end in an operand. -/
def Reached (I : Interpretation A) (ended : Bool) (s : Stack α ω) (items : List (Item α ω)) : Prop :=
  ∃ before last, I.Nested s.outer before ∧ I.Progress ended s.inner last ∧ items = before ++ last

/-- No two operands stand side by side. -/
def Separated (I : Interpretation A) : Bool → List (Item α ω) → Prop
  | _, [] => True
  | ended, item :: items => (begins item = true → ended = false) ∧
      Separated I (I.completes item) items

theorem Reached.feed {ended : Bool} {s t : Stack α ω} {items : List (Item α ω)} {item : Item α ω}
    (h : I.Reached ended s items) (hitem : begins item = true → ended = false)
    (hfeed : I.feed s item = .ok t) : I.Reached (I.completes item) t (items ++ [item]) := by
  obtain ⟨before, last, houter, hinner, rfl⟩ := h
  cases item with
  | operand a =>
    obtain rfl := hitem rfl
    cases hfeed
    exact ⟨before, _, houter, hinner.operand (.operand a), List.append_assoc ..⟩
  | operator op =>
    obtain ⟨g, hreduce, h⟩ := bind_eq_ok_iff.1 hfeed
    cases h
    exact ⟨before, _, houter, hinner.operator hreduce, List.append_assoc ..⟩
  | openGroup =>
    obtain rfl := hitem rfl
    cases hfeed
    exact ⟨_, [], .cons houter hinner, .awaits .nil, (List.append_nil _).symm⟩
  | closeGroup =>
    obtain ⟨⟨inner, s'⟩, hleave, hfeed⟩ := bind_eq_ok_iff.1 hfeed
    obtain ⟨operands, hsettle, hleave⟩ := bind_eq_ok_iff.1 hleave
    obtain ⟨result, hclose, hfeed⟩ := bind_eq_ok_iff.1 hfeed
    cases hfeed
    obtain ⟨sinner, souter⟩ := s
    cases houter with
    | nil => cases hleave
    | @cons outer before items f houter hprogress =>
      cases hleave
      rcases hinner.settle hsettle with ⟨rfl, rfl⟩ | ⟨a, rfl, hreads⟩
      · obtain ⟨c, rfl⟩ := I.close_nil hclose
        exact ⟨before, _, houter, hprogress.operand (.hollow hclose), by simp⟩
      · obtain ⟨c, rfl⟩ := I.close_singleton hclose
        exact ⟨before, _, houter, hprogress.operand (.group hclose hreads), by simp⟩

theorem Reached.run {ended : Bool} {s t : Stack α ω} {items more : List (Item α ω)}
    (h : I.Reached ended s items) (hmore : I.Separated ended more) (hrun : I.run s more = .ok t) :
    ∃ ended', I.Reached ended' t (items ++ more) := by
  induction more generalizing ended s items with
  | nil =>
    cases hrun
    exact ⟨ended, by rwa [List.append_nil]⟩
  | cons item more ih =>
    obtain ⟨s', hfeed, hrun⟩ := bind_eq_ok_iff.1 hrun
    obtain ⟨ended', h'⟩ := ih (h.feed hmore.1 hfeed) hmore.2 hrun
    exact ⟨ended', by rwa [List.append_assoc] at h'⟩

/-- What evaluation leaves is the value of the items, or nothing if there were none. -/
theorem reads_of_complete {items : List (Item α ω)} {s : Stack α ω} {operands : List α}
    (hitems : I.Separated false items) (hrun : I.run {} items = .ok s)
    (hcomplete : s.complete A = .ok operands) :
    (items = [] ∧ operands = []) ∨ ∃ a, operands = [a] ∧ I.Reads 0 items a := by
  have hempty : I.Reached false {} [] := ⟨[], [], .nil, .awaits .nil, rfl⟩
  obtain ⟨ended, before, last, houter, hinner, heq⟩ := hempty.run hitems hrun
  obtain ⟨result, hsettle, h⟩ := bind_eq_ok_iff.1 hcomplete
  split at h
  · next hnil =>
    cases h
    rw [List.isEmpty_iff.1 hnil] at houter
    cases houter
    obtain rfl : items = last := heq
    exact hinner.settle hsettle
  · cases h

end Interpretation

/-! ## Errors do not matter to what succeeds -/

variable {ε' : Type} {A : Algebra α ω ε} {B : Algebra α ω ε'}

/-- The algebras apply operators alike, but for the errors. -/
structure Algebra.Agrees (A : Algebra α ω ε) (B : Algebra α ω ε') : Prop where
  precedence_eq : A.precedence = B.precedence
  apply_iff : ∀ {op operands result},
    A.apply op operands = .ok result ↔ B.apply op operands = .ok result

namespace Algebra.Agrees

theorem reduce_iff (h : A.Agrees B) {least : Nat} {operators : List ω} {operands : List α}
    {f : Frame α ω} :
    A.reduce least operators operands = .ok f ↔ B.reduce least operators operands = .ok f := by
  induction operators generalizing operands with
  | nil => simp only [Algebra.reduce, Except.ok.injEq]
  | cons op operators ih =>
    rw [Algebra.reduce, Algebra.reduce, h.precedence_eq]
    split
    · simp only [Except.ok.injEq]
    · simp only [bind_eq_ok_iff, h.apply_iff, ih]

theorem settle_iff (h : A.Agrees B) {f : Frame α ω} {operands : List α} :
    A.settle f = .ok operands ↔ B.settle f = .ok operands := by
  obtain ⟨start, operators⟩ := f
  rw [Algebra.settle, Algebra.settle]
  dsimp only
  induction operators generalizing start with
  | nil => simp only [List.foldlM_nil, pure_eq_ok_iff]
  | cons op operators ih =>
    simp only [List.foldlM_cons, bind_eq_ok_iff, h.apply_iff, ih]

theorem addOperator_iff (h : A.Agrees B) {s t : Stack α ω} {op : ω} :
    s.addOperator A op = .ok t ↔ s.addOperator B op = .ok t := by
  simp only [Stack.addOperator, bind_eq_ok_iff, h.precedence_eq, h.reduce_iff, pure_eq_ok_iff]

theorem leave_iff (h : A.Agrees B) {s : Stack α ω} {inner : List α} {t : Stack α ω} :
    s.leave A = .ok (inner, t) ↔ s.leave B = .ok (inner, t) := by
  simp only [Stack.leave, bind_eq_ok_iff, h.settle_iff]
  cases s.outer with
  | nil => exact ⟨fun ⟨_, _, h⟩ => (nomatch h), fun ⟨_, _, h⟩ => (nomatch h)⟩
  | cons frame outer => simp only [pure_eq_ok_iff]

theorem complete_iff (h : A.Agrees B) {s : Stack α ω} {operands : List α} :
    s.complete A = .ok operands ↔ s.complete B = .ok operands := by
  simp only [Stack.complete, bind_eq_ok_iff, h.settle_iff]
  cases s.outer.isEmpty with
  | true => simp only [if_true, pure_eq_ok_iff]
  | false => exact ⟨fun ⟨_, _, h⟩ => (nomatch h), fun ⟨_, _, h⟩ => (nomatch h)⟩

end Algebra.Agrees

end Predictive.Precedence
