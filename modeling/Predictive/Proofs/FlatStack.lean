import Predictive.Proofs.Precedence

/-!
# One stack for all groups

A `FlatStack` keeps the operands of all groups on one stack and their operators on another, where an
open group is marked by the number of operands that were there before it. Operators are applied by
programs that take operands and put operands (`Evaluator`), and take none that was there when the
innermost open group was opened. So what is done in a group is done as on a stack of its own
(`Evaluator.run_within`). A stack with a frame for each group goes through the same states
(`Evaluator.run_flat`).
-/

namespace Predictive.Precedence

variable {σ α ω ε ρ : Type}

/-! ## Programs on operands -/

/-- A way to use the operands of a stack: it can only put one there and take the newest, if there is one
to take, and goes on by what it took. -/
inductive Program (α ρ : Type)
  | done (result : ρ)
  | push (a : α) (next : Program α ρ)
  | pop (next : Option α → Program α ρ)

namespace Program

/-- Runs a program on operands, newest first, of which the `floor` oldest are not to be taken. -/
def run (floor : Nat) : Program α ρ → List α → ρ × List α
  | done result, operands => (result, operands)
  | push a next, operands => next.run floor (a :: operands)
  | pop next, operands =>
    if operands.length ≤ floor then (next none).run floor operands
    else (next operands.head?).run floor operands.tail

/-- A program does not depend on operands below the floor, and leaves them as they are. -/
theorem run_append (p : Program α ρ) (floor : Nat) (operands outer : List α) :
    p.run (floor + outer.length) (operands ++ outer) =
      ((p.run floor operands).1, (p.run floor operands).2 ++ outer) := by
  induction p generalizing operands with
  | done result => rfl
  | push a next ih => exact ih (a :: operands)
  | pop next ih =>
    rw [run, run, List.length_append]
    by_cases h : operands.length ≤ floor
    · rw [if_pos h, if_pos (Nat.add_le_add_right h _), ih none]
    · obtain ⟨a, rest, rfl⟩ := List.exists_cons_of_length_pos (Nat.zero_lt_of_lt (Nat.lt_of_not_le h))
      rw [if_neg h, if_neg (by omega)]
      exact ih (some a) rest

/-- A program leaves at least the operands below the floor. -/
theorem floor_le_length_run (p : Program α ρ) (floor : Nat) (operands : List α)
    (h : floor ≤ operands.length) : floor ≤ (p.run floor operands).2.length := by
  induction p generalizing operands with
  | done result => exact h
  | push a next ih =>
    refine ih _ ?_
    rw [List.length_cons]
    omega
  | pop next ih =>
    rw [run]
    split
    · exact ih none operands h
    · refine ih _ _ ?_
      rw [List.length_tail]
      omega

end Program

/-! ## The stack -/

/-- What waits on the stack of operators. -/
inductive Entry (ω : Type)
  | operator (op : ω)
  /-- An open group, with the number of operands that were there when it was opened. -/
  | group (depth : Nat)

namespace Entry

/-- The depth of an open group. -/
def depth? : Entry ω → Option Nat
  | operator _ => none
  | group depth => some depth

/-- The entry where `n` operands are put below. -/
def raise (n : Nat) : Entry ω → Entry ω
  | operator op => operator op
  | group depth => group (depth + n)

/-- The number of operands that were there when the innermost open group was opened. -/
def floor (operators : List (Entry ω)) : Nat := (operators.findSome? depth?).getD 0

theorem floor_raise (operators rest : List (Entry ω)) (n : Nat) :
    floor (operators.map (raise n) ++ .group n :: rest) = floor operators + n := by
  induction operators with
  | nil => exact (Nat.zero_add n).symm
  | cons entry operators ih =>
    cases entry with
    | operator op => exact ih
    | group depth => rfl

end Entry

/-- The operands and operators of all groups, newest first. -/
structure FlatStack (α ω : Type) where
  operands : List α := []
  operators : List (Entry ω) := []

namespace FlatStack

/-- The depths of the open groups, innermost first. -/
def depths (s : FlatStack α ω) : List Nat := s.operators.filterMap Entry.depth?

/-- The stack `s` of a group that was opened on the stack `outer`. -/
def within (s outer : FlatStack α ω) : FlatStack α ω where
  operands := s.operands ++ outer.operands
  operators := s.operators.map (.raise outer.operands.length) ++
    .group outer.operands.length :: outer.operators

end FlatStack

/-! ## Evaluation -/

/-- How operators are applied, in a context that they may use and change. -/
structure Evaluator (σ α ω ε : Type) where
  /-- How tightly an operator binds. -/
  precedence : ω → Nat
  /-- Takes the operands of an operator and puts its result, or fails. -/
  evaluate : ω → σ → Program α (Except ε Unit × σ)
  /-- A group is closed that was not opened. -/
  unopened : σ → ε
  /-- The expression ends in an open group. -/
  unterminated : σ → ε

namespace Evaluator

/-- Applies waiting operators, newest first and up to the innermost open group, as long as they satisfy
`binds`. An operator is taken from the stack before it is applied, and stays away if that fails. -/
def unwind (E : Evaluator σ α ω ε) (binds : ω → Bool) :
    List (Entry ω) → List α → σ → Except ε Unit × FlatStack α ω × σ
  | .operator op :: operators, operands, c =>
    if binds op then
      match (E.evaluate op c).run (Entry.floor operators) operands with
      | ((.ok _, c), operands) => E.unwind binds operators operands c
      | ((.error e, c), operands) => (.error e, { operands, operators }, c)
    else (.ok (), { operands, operators := .operator op :: operators }, c)
  | operators, operands, c => (.ok (), { operands, operators }, c)

/-- Puts an item on the stack. Closing a group gives the depth at which it was opened. What is done
before something fails is not undone. -/
def call (E : Evaluator σ α ω ε) :
    Item α ω → FlatStack α ω × σ → Except ε (Option Nat) × FlatStack α ω × σ
  | .operand a, (s, c) => (.ok none, { s with operands := a :: s.operands }, c)
  | .operator op, (s, c) =>
    match E.unwind (fun top => E.precedence op ≤ E.precedence top) s.operators s.operands c with
    | (.ok _, s, c) => (.ok none, { s with operators := .operator op :: s.operators }, c)
    | (.error e, s, c) => (.error e, s, c)
  | .openGroup, (s, c) =>
    (.ok none, { s with operators := .group s.operands.length :: s.operators }, c)
  | .closeGroup, (s, c) =>
    match E.unwind (fun _ => true) s.operators s.operands c with
    | (.ok _, s, c) =>
      match s.operators with
      | .group depth :: operators => (.ok (some depth), { s with operators }, c)
      | _ => (.error (E.unopened c), s, c)
    | (.error e, s, c) => (.error e, s, c)

/-- Puts items on the stack, from left to right, whether or not something fails. -/
def run (E : Evaluator σ α ω ε) (items : List (Item α ω)) (m : FlatStack α ω × σ) : FlatStack α ω × σ :=
  items.foldl (fun m item => (E.call item m).2) m

/-- The operands that are left, newest first, once all operators are applied. -/
def finish (E : Evaluator σ α ω ε) (m : FlatStack α ω × σ) : Except ε (List α) × σ :=
  match E.unwind (fun _ => true) m.1.operators m.1.operands m.2 with
  | (.ok _, s, c) => if s.operators.isEmpty then (.ok s.operands, c) else (.error (E.unterminated c), c)
  | (.error e, _, c) => (.error e, c)

variable {E : Evaluator σ α ω ε} {s outer : FlatStack α ω} {c : σ} {item : Item α ω}
  {items : List (Item α ω)}
  {binds : ω → Bool} {n : Nat} {operators : List (Entry ω)} {operands : List α}

/-! ## What one call does -/

theorem depths_unwind :
    (E.unwind binds operators operands c).2.1.depths = operators.filterMap Entry.depth? := by
  fun_induction E.unwind binds operators operands c with
  | case1 op operators operands c _ _ _ _ _ ih => exact ih
  | case2 | case3 | case4 => rfl

theorem floor_le_length_unwind (h : Entry.floor operators ≤ operands.length) :
    Entry.floor operators ≤ (E.unwind binds operators operands c).2.1.operands.length := by
  fun_induction E.unwind binds operators operands c with
  | case1 op operators operands c _ _ c' operands' hrun ih =>
    have hle := (E.evaluate op c).floor_le_length_run (Entry.floor operators) operands h
    rw [hrun] at hle
    exact ih hle
  | case2 op operators operands c _ _ c' operands' hrun =>
    have hle := (E.evaluate op c).floor_le_length_run (Entry.floor operators) operands h
    rw [hrun] at hle
    exact hle
  | case3 | case4 => exact h

/-- In a group, waiting operators are applied as on a stack of its own. -/
theorem unwind_within (s outer : FlatStack α ω) :
    E.unwind binds (s.within outer).operators (s.within outer).operands c =
      let r := E.unwind binds s.operators s.operands c
      (r.1, r.2.1.within outer, r.2.2) := by
  obtain ⟨operands, operators⟩ := s
  induction operators generalizing operands c with
  | nil => rfl
  | cons entry operators ih =>
    cases entry with
    | group depth => rfl
    | operator op =>
      have hrun := (E.evaluate op c).run_append (Entry.floor operators) operands outer.operands
      rw [← Entry.floor_raise operators outer.operators] at hrun
      show E.unwind binds (.operator op :: (operators.map _ ++ _)) (operands ++ outer.operands) c = _
      rw [unwind, unwind, hrun]
      by_cases hop : binds op = true
      · rw [if_pos hop, if_pos hop]
        rcases (E.evaluate op c).run (Entry.floor operators) operands with ⟨⟨_ | _, c'⟩, operands'⟩
        · rfl
        · exact ih operands'
      · rw [if_neg hop, if_neg hop]
        rfl

/-- How many of the groups that were opened since some moment are open after an item, if `n` were before.
There is no number if the item closes a group that was open at that moment. -/
def leftOpen (n : Nat) : Item α ω → Except ε (Option Nat) → Option Nat
  | .openGroup, _ => some (n + 1)
  | .closeGroup, .ok _ => if n = 0 then none else some (n - 1)
  | .closeGroup, .error _ | .operand _, _ | .operator _, _ => some n

theorem leftOpen_map (n : Nat) (item : Item α ω) (result : Except ε (Option Nat))
    (f : Option Nat → Option Nat) : leftOpen n item (result.map f) = leftOpen n item result := by
  cases item <;> cases result <;> rfl

/-- An item opens a group on the operands that are there, closes the innermost group and gives its depth,
or leaves the open groups as they are. -/
theorem depths_call (E : Evaluator σ α ω ε) (item : Item α ω) (s : FlatStack α ω) (c : σ) :
    let r := E.call item (s, c)
    (item = .openGroup ∧ r.2.1.depths = s.operands.length :: s.depths) ∨
    (∃ depth, item = .closeGroup ∧ r.1 = .ok (some depth) ∧ s.depths = depth :: r.2.1.depths) ∨
    r.2.1.depths = s.depths ∧ ∀ n, leftOpen n item r.1 = some n := by
  cases item with
  | operand a => exact .inr (.inr ⟨rfl, fun _ => rfl⟩)
  | openGroup => exact .inl ⟨rfl, rfl⟩
  | operator op =>
    have hdepths : (E.unwind (fun top => E.precedence op ≤ E.precedence top) s.operators s.operands
      c).2.1.depths = s.depths := depths_unwind
    rw [call]
    generalize E.unwind _ s.operators s.operands c = r at hdepths
    rcases r with ⟨_ | _, s', c'⟩
    · exact .inr (.inr ⟨hdepths, fun _ => rfl⟩)
    · exact .inr (.inr ⟨hdepths, fun _ => rfl⟩)
  | closeGroup =>
    have hdepths : (E.unwind (fun _ => true) s.operators s.operands c).2.1.depths = s.depths :=
      depths_unwind
    rw [call]
    generalize E.unwind _ s.operators s.operands c = r at hdepths
    rcases r with ⟨_ | _, ⟨operands, operators⟩, c'⟩
    · exact .inr (.inr ⟨hdepths, fun _ => rfl⟩)
    · rcases operators with _ | ⟨op | depth, operators⟩
      · exact .inr (.inr ⟨hdepths, fun _ => rfl⟩)
      · exact .inr (.inr ⟨hdepths, fun _ => rfl⟩)
      · exact .inr (.inl ⟨depth, rfl, rfl, hdepths.symm⟩)

/-- On a stack of its own, an item opens or closes the groups that it is said to. -/
theorem leftOpen_call (E : Evaluator σ α ω ε) (item : Item α ω) (s : FlatStack α ω) (c : σ) :
    leftOpen s.depths.length item (E.call item (s, c)).1 =
      some (E.call item (s, c)).2.1.depths.length := by
  rcases E.depths_call item s c with ⟨rfl, hdepths⟩ | ⟨depth, rfl, hresult, hdepths⟩ | ⟨hdepths, hleft⟩
  · rw [hdepths]
    rfl
  · rw [hresult, hdepths]
    rfl
  · rw [hdepths]
    exact hleft _

/-- What an item gives in a group that was opened on `outer`, if it gives `r` on a stack of its own. -/
def inGroup (outer : FlatStack α ω) (r : Except ε (Option Nat) × FlatStack α ω × σ) :
    Except ε (Option Nat) × FlatStack α ω × σ :=
  (r.1.map (Option.map (· + outer.operands.length)), r.2.1.within outer, r.2.2)

/-- In a group an item does what it does on a stack of its own, unless it closes the group. -/
theorem call_within (E : Evaluator σ α ω ε) (item : Item α ω) (s outer : FlatStack α ω) (c : σ) :
    E.call item (s.within outer, c) = inGroup outer (E.call item (s, c)) ∨
    item = .closeGroup ∧ s.depths = [] ∧ ∃ operands c', E.call item (s.within outer, c) =
      (.ok (some outer.operands.length),
        { operands := operands ++ outer.operands, operators := outer.operators }, c') := by
  cases item with
  | operand a => exact .inl rfl
  | openGroup =>
    refine .inl ?_
    simp [call, inGroup, FlatStack.within, Entry.raise, Except.map]
  | operator op =>
    refine .inl ?_
    rw [call, call, unwind_within]
    rcases E.unwind _ s.operators s.operands c with ⟨_ | _, s', c'⟩ <;> rfl
  | closeGroup =>
    have hdepths : (E.unwind (fun _ => true) s.operators s.operands c).2.1.depths = s.depths :=
      depths_unwind
    rw [call, call, unwind_within]
    generalize E.unwind _ s.operators s.operands c = r at hdepths
    rcases r with ⟨_ | _, ⟨operands, operators⟩, c'⟩
    · exact .inl rfl
    · rcases operators with _ | ⟨op | depth, operators⟩
      · exact .inr ⟨rfl, hdepths.symm, operands, c', rfl⟩
      · exact .inl rfl
      · exact .inl rfl

/-- The groups that are open of those that the items open, if `n` were open before. -/
def unclosed (E : Evaluator σ α ω ε) : Nat → List (Item α ω) → FlatStack α ω × σ → Option Nat
  | n, [], _ => some n
  | n, item :: items, m =>
    (leftOpen n item (E.call item m).1).bind fun n => E.unclosed n items (E.call item m).2

/-- As long as a group is open, the items in it do what they do on a stack of their own. -/
theorem run_within (h : E.unclosed s.depths.length items (s.within outer, c) = some n) :
    let m := E.run items (s, c)
    E.run items (s.within outer, c) = (m.1.within outer, m.2) ∧ m.1.depths.length = n := by
  induction items generalizing s c with
  | nil => exact ⟨rfl, Option.some.inj h⟩
  | cons item items ih =>
    rw [unclosed] at h
    rcases E.call_within item s outer c with hcall | ⟨rfl, hdepths, operands, c', hcall⟩
    · rw [hcall, inGroup, leftOpen_map, leftOpen_call] at h
      have hrun : E.run (item :: items) (s.within outer, c) =
          E.run items ((E.call item (s, c)).2.1.within outer, (E.call item (s, c)).2.2) := by
        rw [run, List.foldl_cons, hcall]
        rfl
      rw [hrun]
      exact ih h
    · rw [hcall, hdepths] at h
      cases h

/-- Puts items on the stack, from left to right and up to the first that fails, and gives the operands
that are left at the end. -/
def eval (E : Evaluator σ α ω ε) : List (Item α ω) → FlatStack α ω × σ → Except ε (List α) × σ
  | [], m => E.finish m
  | item :: items, m =>
    match E.call item m with
    | (.ok _, m) => E.eval items m
    | (.error e, _, c) => (.error e, c)

/-! ## A frame for each group -/

/-- The evaluator applies operators as the algebra does, whatever the context, and leaves this as it is. -/
structure Computes (E : Evaluator σ α ω ε) (A : Algebra α ω ε) : Prop where
  precedence_eq : E.precedence = A.precedence
  unopened_eq : ∀ c, E.unopened c = A.unopened
  unterminated_eq : ∀ c, E.unterminated c = A.unterminated
  run_of_ok : ∀ {op c operands result}, A.apply op operands = .ok result →
    (E.evaluate op c).run 0 operands = ((.ok (), c), result)
  run_of_error : ∀ {op c operands e}, A.apply op operands = .error e →
    ∃ rest, (E.evaluate op c).run 0 operands = ((.error e, c), rest)

end Evaluator

/-- The operands and operators of a frame. -/
def Frame.flat (f : Frame α ω) : FlatStack α ω where
  operands := f.operands
  operators := f.operators.map .operator

/-- The frames of a stack, each in a group opened on those around it. -/
def FlatStack.ofFrames (inner : Frame α ω) : List (Frame α ω) → FlatStack α ω
  | [] => inner.flat
  | frame :: outer => inner.flat.within (ofFrames frame outer)

/-- The stack of the innermost group, if `outer` are the frames around it. -/
def FlatStack.over (s : FlatStack α ω) : List (Frame α ω) → FlatStack α ω
  | [] => s
  | frame :: outer => s.within (ofFrames frame outer)

theorem FlatStack.ofFrames_eq (inner : Frame α ω) (outer : List (Frame α ω)) :
    ofFrames inner outer = inner.flat.over outer := by
  cases outer <;> rfl

namespace Stack

/-- The stack with the operands and operators of all frames together. -/
def flat (s : Stack α ω) : FlatStack α ω := .ofFrames s.inner s.outer

/-- Puts an item on the stack. A group leaves the operands that are left in it. -/
def feed (A : Algebra α ω ε) (s : Stack α ω) : Item α ω → Except ε (Stack α ω)
  | .operand a => return s.addOperand a
  | .operator op => s.addOperator A op
  | .openGroup => return s.enter
  | .closeGroup => do
    let (inner, s) ← s.leave A
    return s.addOperands inner

end Stack

theorem Entry.floor_operators (operators : List ω) : floor (operators.map .operator) = 0 := by
  induction operators with
  | nil => rfl
  | cons op operators ih => exact ih

/-- Operands put on the innermost frame are put on the flat stack. -/
theorem FlatStack.ofFrames_append (f : Frame α ω) (outer : List (Frame α ω)) (operands : List α) :
    ofFrames { f with operands := operands ++ f.operands } outer =
      { ofFrames f outer with operands := operands ++ (ofFrames f outer).operands } := by
  cases outer with
  | nil => rfl
  | cons frame outer => simp [ofFrames, within, Frame.flat]

/-- Applying the operators that bind at least as tightly as none leaves no operator. -/
theorem Algebra.reduce_zero_eq (A : Algebra α ω ε) (operators : List ω) (operands : List α) :
    A.reduce 0 operators operands =
      (A.settle { operands, operators }).map fun operands => { operands } := by
  rw [settle]
  induction operators generalizing operands with
  | nil => rfl
  | cons op operators ih =>
    rw [reduce, if_neg (Nat.not_lt_zero _), List.foldlM_cons]
    cases A.apply op operands with
    | error e => rfl
    | ok operands => exact ih operands

namespace Evaluator

variable {E : Evaluator σ α ω ε} {A : Algebra α ω ε} {s t : Stack α ω} {f g : Frame α ω}
  {item : Item α ω} {c : σ} {e : ε} {least : Nat}

theorem unwind_over {binds : ω → Bool} (s : FlatStack α ω) (outer : List (Frame α ω)) :
    E.unwind binds (s.over outer).operators (s.over outer).operands c =
      let r := E.unwind binds s.operators s.operands c
      (r.1, r.2.1.over outer, r.2.2) := by
  cases outer with
  | nil => rfl
  | cons frame outer => exact E.unwind_within s (.ofFrames frame outer)

namespace Computes

/-- In a frame, waiting operators are applied as on the flat stack. -/
theorem unwind_of_ok (h : E.Computes A) (hreduce : A.reduce least f.operators f.operands = .ok g) :
    E.unwind (fun top => least ≤ E.precedence top) f.flat.operators f.flat.operands c =
      (.ok (), g.flat, c) := by
  obtain ⟨operands, operators⟩ := f
  dsimp only [Frame.flat] at hreduce ⊢
  induction operators generalizing operands with
  | nil =>
    cases hreduce
    rfl
  | cons op operators ih =>
    rw [Algebra.reduce] at hreduce
    rw [List.map_cons, unwind, h.precedence_eq]
    split at hreduce
    · next hlt =>
      cases hreduce
      rw [if_neg (by simpa using hlt)]
      rfl
    · next hle =>
      obtain ⟨rest, happly, hreduce⟩ := bind_eq_ok_iff.1 hreduce
      rw [if_pos (by simpa using hle), Entry.floor_operators, h.run_of_ok happly]
      have := ih rest hreduce
      rwa [h.precedence_eq] at this

theorem unwind_of_error (h : E.Computes A)
    (hreduce : A.reduce least f.operators f.operands = .error e) :
    ∃ s, E.unwind (fun top => least ≤ E.precedence top) f.flat.operators f.flat.operands c =
      (.error e, s, c) := by
  obtain ⟨operands, operators⟩ := f
  dsimp only [Frame.flat] at hreduce ⊢
  induction operators generalizing operands with
  | nil => cases hreduce
  | cons op operators ih =>
    rw [Algebra.reduce] at hreduce
    rw [List.map_cons, unwind, h.precedence_eq]
    split at hreduce
    · cases hreduce
    · next hle =>
      rw [if_pos (by simpa using hle), Entry.floor_operators]
      rcases bind_eq_error_iff.1 hreduce with happly | ⟨rest, happly, hreduce⟩
      · obtain ⟨rest, hrun⟩ := h.run_of_error (c := c) happly
        rw [hrun]
        exact ⟨_, rfl⟩
      · rw [h.run_of_ok happly]
        have := ih rest hreduce
        rwa [h.precedence_eq] at this

/-- A frame is settled as all operators above the innermost open group are applied. -/
theorem unwind_cases (h : E.Computes A) (f : Frame α ω) (c : σ) :
    (∃ rest, A.settle f = .ok rest ∧ E.unwind (fun _ => true) f.flat.operators f.flat.operands c =
      (.ok (), { operands := rest }, c)) ∨
    ∃ e s, A.settle f = .error e ∧ E.unwind (fun _ => true) f.flat.operators f.flat.operands c =
      (.error e, s, c) := by
  have hall : (fun _ : ω => true) = fun top => decide (0 ≤ E.precedence top) := by simp
  have hreduce := A.reduce_zero_eq f.operators f.operands
  rw [hall]
  cases hsettle : A.settle f with
  | ok rest =>
    rw [hsettle] at hreduce
    exact .inl ⟨rest, rfl, h.unwind_of_ok hreduce⟩
  | error e =>
    rw [hsettle] at hreduce
    obtain ⟨s, hs⟩ := h.unwind_of_error (c := c) hreduce
    exact .inr ⟨e, s, rfl, hs⟩

/-- An operator does the same on the flat stack as on the frames. -/
theorem call_operator (h : E.Computes A) (op : ω) (s : Stack α ω) (c : σ) :
    (∃ t, s.addOperator A op = .ok t ∧ E.call (.operator op) (s.flat, c) = (.ok none, t.flat, c)) ∨
    ∃ e t, s.addOperator A op = .error e ∧ E.call (.operator op) (s.flat, c) = (.error e, t, c) := by
  obtain ⟨f, outer⟩ := s
  rw [call, Stack.flat, FlatStack.ofFrames_eq, unwind_over, Stack.addOperator, ← h.precedence_eq]
  dsimp only
  cases hreduce : A.reduce (E.precedence op) f.operators f.operands with
  | ok g =>
    refine .inl ⟨_, rfl, ?_⟩
    rw [h.unwind_of_ok hreduce]
    cases outer <;> rfl
  | error e =>
    obtain ⟨s, hs⟩ := h.unwind_of_error (c := c) hreduce
    rw [hs]
    exact .inr ⟨e, _, rfl, rfl⟩

/-- The end of a group does the same on the flat stack as on the frames. -/
theorem call_closeGroup (h : E.Computes A) (s : Stack α ω) (c : σ) :
    (∃ t r, s.feed A .closeGroup = .ok t ∧ E.call .closeGroup (s.flat, c) = (.ok r, t.flat, c)) ∨
    ∃ e t, s.feed A .closeGroup = .error e ∧ E.call .closeGroup (s.flat, c) = (.error e, t, c) := by
  obtain ⟨f, outer⟩ := s
  rw [call, Stack.flat, FlatStack.ofFrames_eq, unwind_over, Stack.feed, Stack.leave]
  rcases h.unwind_cases f c with ⟨rest, hsettle, hunwind⟩ | ⟨e, t, hsettle, hunwind⟩
  · rw [hunwind, hsettle]
    cases outer with
    | nil => exact .inr ⟨A.unopened, _, rfl, by rw [← h.unopened_eq c]; rfl⟩
    | cons frame outer =>
      refine .inl ⟨_, some (FlatStack.ofFrames frame outer).operands.length, rfl, ?_⟩
      rw [Stack.flat, Stack.addOperands, FlatStack.ofFrames_append]
      rfl
  · rw [hunwind, hsettle]
    exact .inr ⟨e, _, rfl, rfl⟩

/-- An item does the same on the flat stack as on the frames. -/
theorem call_cases (h : E.Computes A) (item : Item α ω) (s : Stack α ω) (c : σ) :
    (∃ t r, s.feed A item = .ok t ∧ E.call item (s.flat, c) = (.ok r, t.flat, c)) ∨
    ∃ e t, s.feed A item = .error e ∧ E.call item (s.flat, c) = (.error e, t, c) := by
  cases item with
  | operand a =>
    refine .inl ⟨_, none, rfl, ?_⟩
    exact congrArg (fun t => (Except.ok none, t, c)) (FlatStack.ofFrames_append s.inner s.outer [a]).symm
  | openGroup =>
    refine .inl ⟨_, none, rfl, ?_⟩
    simp [call, Stack.flat, Stack.enter, FlatStack.ofFrames, FlatStack.within, Frame.flat]
  | operator op =>
    exact (h.call_operator op s c).imp_left fun ⟨t, hfeed, hcall⟩ => ⟨t, none, hfeed, hcall⟩
  | closeGroup => exact h.call_closeGroup s c

/-- What is left at the end is the same on the flat stack as on the frames. -/
theorem finish_eq (h : E.Computes A) (s : Stack α ω) (c : σ) :
    E.finish (s.flat, c) = (s.complete A, c) := by
  obtain ⟨f, outer⟩ := s
  rw [finish, Stack.flat, FlatStack.ofFrames_eq, unwind_over, Stack.complete]
  rcases h.unwind_cases f c with ⟨rest, hsettle, hunwind⟩ | ⟨e, t, hsettle, hunwind⟩
  · rw [hunwind, hsettle]
    cases outer with
    | nil => rfl
    | cons frame outer => exact congrArg (fun e => (Except.error e, c)) (h.unterminated_eq c)
  · rw [hunwind, hsettle]
    rfl

/-- Items leave the same on the flat stack as on the frames. -/
theorem eval_eq (h : E.Computes A) (items : List (Item α ω)) (s : Stack α ω) (c : σ) :
    E.eval items (s.flat, c) = (items.foldlM (Stack.feed A) s >>= fun t => t.complete A, c) := by
  induction items generalizing s with
  | nil => exact h.finish_eq s c
  | cons item items ih =>
    rw [eval, List.foldlM_cons]
    rcases h.call_cases item s c with ⟨t, r, hfeed, hcall⟩ | ⟨e, t, hfeed, hcall⟩
    · rw [hcall, hfeed]
      exact ih t
    · rw [hcall, hfeed]
      rfl

/-- Items that can be put on the frames lead to the same stack. -/
theorem run_flat (h : E.Computes A) {items : List (Item α ω)} {s t : Stack α ω}
    (hrun : items.foldlM (Stack.feed A) s = .ok t) (c : σ) :
    E.run items (s.flat, c) = (t.flat, c) := by
  induction items generalizing s with
  | nil =>
    cases hrun
    rfl
  | cons item items ih =>
    obtain ⟨s', hfeed, hrun⟩ := bind_eq_ok_iff.1 hrun
    rw [run, List.foldl_cons]
    rcases h.call_cases item s c with ⟨t', r, hfeed', hcall⟩ | ⟨e, t', hfeed', hcall⟩
    · obtain rfl := Except.ok.inj (hfeed.symm.trans hfeed')
      rw [hcall]
      exact ih hrun
    · cases hfeed.symm.trans hfeed'

end Computes

end Evaluator

end Predictive.Precedence
