import Predictive.Proofs.FlatStack
import Predictive.Proofs.RegexGrammar

/-!
# The value of an infix expression

`Fixity.WellFormed` says what the infix expressions with groups are, and `Fixity.Reads` which tree such
an expression stands for: tighter operators are nearer to their operands, equal ones go from left to
right, and groups stay together. There is exactly one tree (`Fixity.WellFormed.exists_reads`,
`Fixity.Reads.unique`). Evaluation on a stack gives its value, and applies its operators one by one after
their operands (`Operations.eval_of_wellFormed`). The operators may use and change a context.
-/

namespace Predictive.Precedence

variable {σ α β ω ε ρ τ : Type}

/-! ## Expressions and their trees -/

/-- How tightly operators bind, and which of them stand after their operand. These bind tighter than the
others, which stand between two operands. -/
structure Fixity (ω : Type) where
  precedence : ω → Nat
  isAfter : ω → Bool
  tighter : ∀ {op op'}, isAfter op = true → isAfter op' = false → precedence op' < precedence op

/-- Operators on their operands. -/
inductive Tree (α ω : Type)
  | operand (a : α)
  | after (t : Tree α ω) (op : ω)
  | between (left : Tree α ω) (op : ω) (right : Tree α ω)

namespace Fixity

/-- Infix expressions with groups. -/
inductive WellFormed (F : Fixity ω) : List (Item α ω) → Prop
  | operand (a : α) : WellFormed F [.operand a]
  | group {items : List (Item α ω)} : WellFormed F items →
      WellFormed F (.openGroup :: items ++ [.closeGroup])
  | after {items : List (Item α ω)} {op : ω} : F.isAfter op = true → WellFormed F items →
      WellFormed F (items ++ [.operator op])
  | between {left right : List (Item α ω)} {op : ω} : F.isAfter op = false → WellFormed F left →
      WellFormed F right → WellFormed F (left ++ .operator op :: right)

/-- What operators after the operand `x` make of it. The last one to be applied is the rightmost of those
that bind loosest. -/
inductive Row (F : Fixity ω) : Tree α ω → List ω → Tree α ω → Prop
  | nil (x : Tree α ω) : Row F x [] x
  | cons {x y z : Tree α ω} {before behind : List ω} {op : ω} : F.isAfter op = true →
      (∀ op' ∈ before, F.precedence op ≤ F.precedence op') →
      (∀ op' ∈ behind, F.precedence op < F.precedence op') →
      Row F x before y → Row F y behind z → Row F x (before ++ op :: behind) (.after z op)

/-- The tree of an expression, if the operators between its operands bind at least as tightly as `n`
outside groups. The last one to be applied is the rightmost of those that bind loosest. -/
inductive Reads (F : Fixity ω) : Nat → List (Item α ω) → Tree α ω → Prop
  | operand {n : Nat} {a : α} {row : List ω} {t : Tree α ω} : F.Row (.operand a) row t →
      Reads F n (.operand a :: row.map .operator) t
  | group {n : Nat} {items : List (Item α ω)} {row : List ω} {s t : Tree α ω} : Reads F 0 items s →
      F.Row s row t → Reads F n (.openGroup :: items ++ .closeGroup :: row.map .operator) t
  | between {n : Nat} {left right : List (Item α ω)} {op : ω} {l r : Tree α ω} :
      F.isAfter op = false → n ≤ F.precedence op → Reads F (F.precedence op) left l →
      Reads F (F.precedence op + 1) right r →
      Reads F n (left ++ .operator op :: right) (.between l op r)

variable {F : Fixity ω} {n : Nat} {items left right : List (Item α ω)} {row : List ω} {op : ω}
  {x t l r : Tree α ω}

/-! ## Every expression has a tree -/

/-- Another operator takes its place among those that bind tighter and those that bind looser. -/
theorem Row.concat (h : F.Row x row t) (hop : F.isAfter op = true) : ∃ t, F.Row x (row ++ [op]) t := by
  induction h with
  | nil x => exact ⟨_, .cons hop (by simp) (by simp) (.nil x) (.nil x)⟩
  | @cons x y z before behind op₀ hop₀ hbefore hbehind hy hz _ ih =>
    by_cases hle : F.precedence op ≤ F.precedence op₀
    · refine ⟨_, .cons hop (fun op' hop' => ?_) (by simp) (.cons hop₀ hbefore hbehind hy hz) (.nil _)⟩
      rcases List.mem_append.1 hop' with hop' | hop'
      · exact Nat.le_trans hle (hbefore op' hop')
      · rcases List.mem_cons.1 hop' with rfl | hop'
        · exact hle
        · exact Nat.le_trans hle (Nat.le_of_lt (hbehind op' hop'))
    · obtain ⟨t', ht'⟩ := ih
      rw [List.append_assoc, List.cons_append]
      refine ⟨_, .cons hop₀ hbefore (fun op' hop' => ?_) hy ht'⟩
      rcases List.mem_append.1 hop' with hop' | hop'
      · exact hbehind op' hop'
      · rw [List.mem_singleton.1 hop']
        exact Nat.lt_of_not_le hle

theorem Reads.after (h : F.Reads n items t) (hop : F.isAfter op = true) :
    ∃ t, F.Reads n (items ++ [.operator op]) t := by
  induction h with
  | @operand n _ _ _ hrow =>
    obtain ⟨t', hrow⟩ := hrow.concat hop
    have hoperand := Reads.operand (n := n) hrow
    rw [List.map_append, ← List.cons_append] at hoperand
    exact ⟨t', hoperand⟩
  | @group n _ _ _ _ hitems hrow _ =>
    obtain ⟨t', hrow⟩ := hrow.concat hop
    have hgroup := Reads.group (n := n) hitems hrow
    rw [List.map_append, ← List.cons_append, ← List.append_assoc] at hgroup
    exact ⟨t', hgroup⟩
  | between hop₀ hn hl hr _ ih =>
    obtain ⟨r', hr'⟩ := ih
    rw [List.append_assoc, List.cons_append]
    exact ⟨_, .between hop₀ hn hl hr'⟩

/-- What stands on the right side has no operator outside groups that could bind looser. -/
theorem Reads.between_right (h : F.Reads n items t) (hop : F.isAfter op = false)
    (hn : n ≤ F.precedence op) (hright : ∀ n, F.Reads n right r) :
    ∃ t, F.Reads n (items ++ .operator op :: right) t := by
  induction h with
  | operand hrow => exact ⟨_, .between hop hn (.operand hrow) (hright _)⟩
  | group hitems hrow _ => exact ⟨_, .between hop hn (.group hitems hrow) (hright _)⟩
  | @between n left₀ right₀ op₀ l r₀ hop₀ hn₀ hl hr _ ih =>
    by_cases hle : F.precedence op ≤ F.precedence op₀
    · exact ⟨_, .between hop hn (.between hop₀ hle hl hr) (hright _)⟩
    · obtain ⟨r', hr'⟩ := ih (Nat.lt_of_not_le hle)
      rw [List.append_assoc, List.cons_append]
      exact ⟨_, .between hop₀ hn₀ hl hr'⟩

/-- An expression has a tree, also as the right side of an operator between operands. -/
theorem WellFormed.reads_and_extends (h : F.WellFormed right) :
    (∃ t, F.Reads 0 right t) ∧ ∀ left op, F.isAfter op = false → (∃ l, F.Reads 0 left l) →
      ∃ t, F.Reads 0 (left ++ .operator op :: right) t := by
  induction h with
  | operand a =>
    exact ⟨⟨_, .operand (.nil _)⟩, fun left op hop ⟨l, hl⟩ =>
      hl.between_right hop (Nat.zero_le _) fun n => .operand (.nil (.operand a))⟩
  | group _ ih =>
    obtain ⟨s, hs⟩ := ih.1
    exact ⟨⟨_, .group hs (.nil s)⟩, fun left op hop ⟨l, hl⟩ =>
      hl.between_right hop (Nat.zero_le _) fun n => .group hs (.nil s)⟩
  | after hop _ ih =>
    obtain ⟨t, ht⟩ := ih.1
    refine ⟨ht.after hop, fun left op' hop' hleft => ?_⟩
    obtain ⟨t', ht'⟩ := ih.2 left op' hop' hleft
    rw [← List.cons_append, ← List.append_assoc]
    exact ht'.after hop
  | between hop _ _ ihleft ihright =>
    refine ⟨ihright.2 _ _ hop ihleft.1, fun left' op' hop' hleft' => ?_⟩
    rw [← List.cons_append, ← List.append_assoc]
    exact ihright.2 _ _ hop (ihleft.2 left' op' hop' hleft')

theorem WellFormed.exists_reads (h : F.WellFormed items) : ∃ t, F.Reads 0 items t :=
  h.reads_and_extends.1

end Fixity

/-! ## What the tree of an expression consists of -/

namespace Item

/-- The item opens or closes a group. -/
def isBracket : Item α ω → Bool
  | openGroup | closeGroup => true
  | operand _ | operator _ => false

/-- The operator that the item is. -/
def operator? : Item α ω → Option ω
  | operator op => some op
  | operand _ | openGroup | closeGroup => none

end Item

theorem filterMap_unbracketed {items : List (Item α ω)} :
    (items.filter fun item => !item.isBracket).filterMap Item.operator? =
      items.filterMap Item.operator? := by
  rw [List.filterMap_filter]
  refine List.filterMap_congr fun item _ => ?_
  cases item <;> rfl

namespace Tree

/-- The operands and operators of a tree, each operator behind or between its operands. -/
def inorder : Tree α ω → List (Item α ω)
  | operand a => [.operand a]
  | after t op => t.inorder ++ [.operator op]
  | between l op r => l.inorder ++ .operator op :: r.inorder

/-- The operators of a tree, each behind those of its operands. -/
def postorder : Tree α ω → List ω
  | operand _ => []
  | after t op => t.postorder ++ [op]
  | between l op r => l.postorder ++ (r.postorder ++ [op])

theorem postorder_perm (t : Tree α ω) : t.postorder.Perm (t.inorder.filterMap Item.operator?) := by
  induction t with
  | operand a => exact .nil
  | after t op ih =>
    rw [inorder, List.filterMap_append]
    exact ih.append_right [op]
  | between l op r ihl ihr =>
    rw [inorder, List.filterMap_append]
    exact ihl.append (List.perm_append_comm.trans (ihr.cons op))

end Tree

namespace Fixity

variable {F : Fixity ω} {n : Nat} {items left right : List (Item α ω)} {row : List ω} {op : ω}
  {x t l r : Tree α ω}

theorem Row.isAfter (h : F.Row x row t) : ∀ op ∈ row, F.isAfter op = true := by
  induction h with
  | nil x => exact fun op hop => absurd hop List.not_mem_nil
  | cons hop₀ _ _ _ _ ihbefore ihbehind =>
    intro op hop
    rcases List.mem_append.1 hop with hop | hop
    · exact ihbefore op hop
    · rcases List.mem_cons.1 hop with rfl | hop
      · exact hop₀
      · exact ihbehind op hop

theorem Row.inorder_perm (h : F.Row x row t) :
    t.inorder.Perm (x.inorder ++ row.map .operator) := by
  induction h with
  | nil x => rw [List.map_nil, List.append_nil]
  | @cons x y z before behind op _ _ _ _ _ ihy ihz =>
    rw [Tree.inorder, List.map_append, List.map_cons]
    refine ((ihz.trans (ihy.append_right _)).append_right [.operator op]).trans ?_
    rw [List.append_assoc, List.append_assoc]
    exact (List.perm_append_comm.append_left _).append_left _

theorem filter_row (row : List ω) :
    (row.map (Item.operator (α := α))).filter (fun item => !item.isBracket) = row.map .operator := by
  simp [List.filter_map, Function.comp_def, Item.isBracket]

/-- The tree of an expression consists of its operands and operators. -/
theorem Reads.inorder_perm (h : F.Reads n items t) :
    t.inorder.Perm (items.filter fun item => !item.isBracket) := by
  induction h with
  | @operand _ a row _ hrow =>
    rw [List.filter_cons_of_pos rfl, filter_row]
    exact hrow.inorder_perm
  | @group _ items row _ _ _ hrow ih =>
    rw [List.cons_append, List.filter_cons_of_neg Bool.false_ne_true, List.filter_append,
      List.filter_cons_of_neg Bool.false_ne_true, filter_row]
    exact hrow.inorder_perm.trans (ih.append_right _)
  | between _ _ _ _ ihl ihr =>
    rw [Tree.inorder, List.filter_append, List.filter_cons_of_pos rfl]
    exact ihl.append (ihr.cons _)

/-- Operators that bind equally tightly are applied from left to right. -/
theorem Row.inorder_eq (h : F.Row x row t)
    (hsame : ∀ op op', F.isAfter op = true → F.isAfter op' = true → F.precedence op = F.precedence op') :
    t.inorder = x.inorder ++ row.map .operator := by
  induction h with
  | nil x => rw [List.map_nil, List.append_nil]
  | @cons x y z before behind op hop _ hbehind _ hz ihy ihz =>
    obtain rfl : behind = [] := List.eq_nil_iff_forall_not_mem.2 fun op' hop' =>
      Nat.ne_of_lt (hbehind op' hop') (hsame op op' hop (hz.isAfter op' hop'))
    rw [Tree.inorder, ihz, ihy]
    simp

theorem Reads.inorder_eq (h : F.Reads n items t)
    (hsame : ∀ op op', F.isAfter op = true → F.isAfter op' = true → F.precedence op = F.precedence op') :
    t.inorder = items.filter fun item => !item.isBracket := by
  induction h with
  | operand hrow =>
    rw [List.filter_cons_of_pos rfl, filter_row, hrow.inorder_eq hsame]
    rfl
  | group _ hrow ih =>
    rw [List.cons_append, List.filter_cons_of_neg Bool.false_ne_true, List.filter_append,
      List.filter_cons_of_neg Bool.false_ne_true, filter_row, hrow.inorder_eq hsame, ih]
  | between _ _ _ _ ihl ihr =>
    rw [Tree.inorder, List.filter_append, List.filter_cons_of_pos rfl, ihl, ihr]

end Fixity

/-! ## Applying operators -/

namespace Evaluator

variable {E : Evaluator σ α ω ε} {m m' : FlatStack α ω × σ} {items : List (Item α ω)}

/-- Puts an item on the stack, if this does not fail. -/
def feed (E : Evaluator σ α ω ε) (m : FlatStack α ω × σ) (item : Item α ω) :
    Except ε (FlatStack α ω × σ) :=
  match E.call item m with
  | (.ok _, m) => .ok m
  | (.error e, _) => .error e

theorem eval_of_feed (h : items.foldlM E.feed m = .ok m') : E.eval items m = E.finish m' := by
  induction items generalizing m with
  | nil =>
    cases h
    rfl
  | cons item items ih =>
    obtain ⟨m₁, hfeed, h⟩ := bind_eq_ok_iff.1 h
    rw [feed] at hfeed
    rw [eval]
    generalize E.call item m = r at hfeed
    rcases r with ⟨_ | _, _⟩
    · cases hfeed
    · cases hfeed
      exact ih h

/-- Applies waiting operators of the innermost group that bind at least as tightly as `least`. -/
def unwindTo (E : Evaluator σ α ω ε) (least : Nat) (m : FlatStack α ω × σ) :
    Except ε Unit × FlatStack α ω × σ :=
  E.unwind (fun op => least ≤ E.precedence op) m.1.operators m.1.operands m.2

theorem unwind_all (E : Evaluator σ α ω ε) (m : FlatStack α ω × σ) :
    E.unwind (fun _ => true) m.1.operators m.1.operands m.2 = E.unwindTo 0 m := by
  have hall : (fun _ : ω => true) = fun op => decide (0 ≤ E.precedence op) := by simp
  rw [hall, unwindTo]

end Evaluator

namespace FlatStack

/-- The stack with an operand that was computed in the context that is left. -/
def put (s : FlatStack α ω) (r : α × σ) : FlatStack α ω × σ :=
  ({ s with operands := r.1 :: s.operands }, r.2)

/-- The stack with an operator that waits. -/
def wait (s : FlatStack α ω) (op : ω) : FlatStack α ω :=
  { s with operators := .operator op :: s.operators }

/-- The operands below the floor are there. -/
def Floored (s : FlatStack α ω) : Prop := Entry.floor s.operators ≤ s.operands.length

/-- The newest operator of the innermost group binds looser than `n`. -/
def Below (s : FlatStack α ω) (F : Fixity ω) (n : Nat) : Prop :=
  ∀ op operators, s.operators = .operator op :: operators → F.precedence op < n

end FlatStack

/-- What the operators do that an evaluator applies. Each takes its operands and puts one result. -/
structure Operations (F : Fixity ω) (E : Evaluator σ α ω ε) where
  after : ω → α → σ → α × σ
  between : ω → α → α → σ → α × σ
  precedence_eq : E.precedence = F.precedence
  run_after : ∀ {op c floor a rest}, F.isAfter op = true → floor ≤ rest.length →
    (E.evaluate op c).run floor (a :: rest) = ((.ok (), (after op a c).2), (after op a c).1 :: rest)
  run_between : ∀ {op c floor a b rest}, F.isAfter op = false → floor ≤ rest.length →
    (E.evaluate op c).run floor (b :: a :: rest) =
      ((.ok (), (between op a b c).2), (between op a b c).1 :: rest)

namespace Operations

variable {F : Fixity ω} {E : Evaluator σ α ω ε} (O : Operations F E)

/-- The value of a tree: that of its operator on those of its operands, which come first, from left to
right. -/
def value : Tree α ω → σ → α × σ
  | .operand a, c => (a, c)
  | .after t op, c =>
    let x := value t c
    O.after op x.1 x.2
  | .between l op r, c =>
    let x := value l c
    let y := value r x.2
    O.between op x.1 y.1 y.2

variable {O} {s : FlatStack α ω} {least : Nat} {op : ω} {c : σ} {m : FlatStack α ω × σ}

theorem unwindTo_wait (O : Operations F E) (hop : F.isAfter op = true) (hleast : least ≤ F.precedence op)
    (hs : s.Floored) (x : α × σ) :
    E.unwindTo least ((s.wait op).put x) = E.unwindTo least (s.put (O.after op x.1 x.2)) := by
  show E.unwind _ (.operator op :: s.operators) (x.1 :: s.operands) x.2 = _
  rw [Evaluator.unwind, if_pos (by rw [O.precedence_eq]; exact decide_eq_true hleast),
    O.run_after hop hs]
  rfl

theorem unwindTo_put_wait (O : Operations F E) (hop : F.isAfter op = false)
    (hleast : least ≤ F.precedence op) (hs : s.Floored) (x y : α × σ) :
    E.unwindTo least (((s.put x).1.wait op).put y) =
      E.unwindTo least (s.put (O.between op x.1 y.1 y.2)) := by
  show E.unwind _ (.operator op :: s.operators) (y.1 :: x.1 :: s.operands) y.2 = _
  rw [Evaluator.unwind, if_pos (by rw [O.precedence_eq]; exact decide_eq_true hleast),
    O.run_between hop hs]
  rfl

/-- Where the newest operator binds looser, no operator is applied. -/
theorem unwindTo_of_below (O : Operations F E) (hs : s.Below F least) (x : α × σ) :
    E.unwindTo least (s.put x) = (.ok (), s.put x) := by
  obtain ⟨operands, _ | ⟨op | depth, operators⟩⟩ := s
  · rfl
  · show E.unwind _ (.operator op :: operators) (x.1 :: operands) x.2 = _
    rw [Evaluator.unwind, if_neg]
    · rfl
    · rw [O.precedence_eq]
      simpa using hs op operators rfl
  · rfl

theorem feed_operator (O : Operations F E) (h : E.unwindTo (F.precedence op) m = (.ok (), s, c)) :
    E.feed m (.operator op) = .ok (s.wait op, c) := by
  obtain ⟨s₀, c₀⟩ := m
  rw [← O.precedence_eq] at h
  have hunwind : E.unwind (fun top => E.precedence op ≤ E.precedence top) s₀.operators s₀.operands c₀ =
    (.ok (), s, c) := h
  rw [Evaluator.feed, Evaluator.call, hunwind]
  rfl

/-! ## Evaluation gives the value -/

variable {x y t : Tree α ω} {row : List ω} {n : Nat} {items : List (Item α ω)}

/-- After a row of operators the stack is as good as with what they make of their operand, for operators
that bind no tighter than they. -/
theorem feed_row (O : Operations F E) (h : F.Row x row t) (s : FlatStack α ω) (c : σ) (hs : s.Floored)
    (hbelow : ∀ op ∈ row, s.Below F (F.precedence op)) :
    ∃ m, (row.map Item.operator).foldlM E.feed (s.put (O.value x c)) = .ok m ∧
      ∀ least, (∀ op ∈ row, least ≤ F.precedence op) →
        E.unwindTo least m = E.unwindTo least (s.put (O.value t c)) := by
  induction h generalizing s with
  | nil x => exact ⟨_, rfl, fun _ _ => rfl⟩
  | @cons x y z before behind op hop hbefore hbehind _ _ ihy ihz =>
    obtain ⟨m, hrun, hm⟩ := ihy s hs fun op' hop' => hbelow op' (List.mem_append_left _ hop')
    have hfeed : E.feed m (.operator op) = .ok ((s.wait op).put (O.value y c)) :=
      O.feed_operator ((hm _ hbefore).trans
        (O.unwindTo_of_below (hbelow op (List.mem_append_right _ List.mem_cons_self)) _))
    obtain ⟨m', hrun', hm'⟩ := ihz (s.wait op) hs fun op' hop' op₀ _ hop₀ => by
      cases hop₀
      exact hbehind op' hop'
    refine ⟨m', ?_, fun least hleast => ?_⟩
    · rw [List.map_append, List.foldlM_append, hrun]
      show E.feed m (.operator op) >>= _ = _
      rw [hfeed]
      exact hrun'
    · rw [hm' least fun op' hop' => hleast op' (by simp [hop'])]
      exact O.unwindTo_wait hop (hleast op (by simp)) hs _

/-- Operators after an operand bind tighter than those that could wait before it. -/
theorem feed_row_of_below (O : Operations F E) (h : F.Row x row t) (s : FlatStack α ω) (c : σ)
    (hs : s.Floored) (hbelow : s.Below F n) (hn : ∀ op, F.isAfter op = true → n ≤ F.precedence op) :
    ∃ m, (row.map Item.operator).foldlM E.feed (s.put (O.value x c)) = .ok m ∧
      ∀ least ≤ n, E.unwindTo least m = E.unwindTo least (s.put (O.value t c)) := by
  have hafter := h.isAfter
  obtain ⟨m, hrun, hm⟩ := O.feed_row h s c hs fun op hop op₀ operators hop₀ =>
    Nat.lt_of_lt_of_le (hbelow op₀ operators hop₀) (hn op (hafter op hop))
  exact ⟨m, hrun, fun least hleast => hm least fun op hop =>
    Nat.le_trans hleast (hn op (hafter op hop))⟩

/-- After an expression the stack is as good as with its value in place of it, for operators that bind no
tighter than it. -/
theorem feed_reads (O : Operations F E) (h : F.Reads n items t) (s : FlatStack α ω) (c : σ)
    (hs : s.Floored) (hbelow : s.Below F n) (hn : ∀ op, F.isAfter op = true → n ≤ F.precedence op) :
    ∃ m, items.foldlM E.feed (s, c) = .ok m ∧
      ∀ least ≤ n, E.unwindTo least m = E.unwindTo least (s.put (O.value t c)) := by
  induction h generalizing s c with
  | operand hrow => exact O.feed_row_of_below hrow s c hs hbelow hn
  | @group n items row x t _ hrow ih =>
    -- the group is opened on `s`, where it hides all operators
    let inner : FlatStack α ω := { s with operators := .group s.operands.length :: s.operators }
    obtain ⟨m, hrun, hm⟩ := ih inner c (Nat.le_refl _) (fun op operators h => by cases h)
      fun _ _ => Nat.zero_le _
    have hclose : E.feed m .closeGroup = .ok (s.put (O.value x c)) := by
      have hunwind := (E.unwind_all m).trans (hm 0 (Nat.le_refl 0))
      obtain ⟨s₀, c₀⟩ := m
      rw [Evaluator.feed, Evaluator.call, hunwind]
      rfl
    obtain ⟨m', hrun', hm'⟩ := O.feed_row_of_below hrow s c hs hbelow hn
    refine ⟨m', ?_, hm'⟩
    show (items ++ Item.closeGroup :: row.map Item.operator).foldlM E.feed (inner, c) = _
    rw [List.foldlM_append, hrun]
    show E.feed m .closeGroup >>= _ = _
    rw [hclose]
    exact hrun'
  | @between n left right op l r hop hle _ _ ihl ihr =>
    obtain ⟨m, hrun, hm⟩ := ihl s c hs
      (fun op₀ operators h => Nat.lt_of_lt_of_le (hbelow op₀ operators h) hle)
      fun op' hop' => Nat.le_of_lt (F.tighter hop' hop)
    have hfeed : E.feed m (.operator op) =
        .ok ((s.put (O.value l c)).1.wait op, (O.value l c).2) :=
      O.feed_operator ((hm _ (Nat.le_refl _)).trans (O.unwindTo_of_below
        (fun op₀ operators h => Nat.lt_of_lt_of_le (hbelow op₀ operators h) hle) _))
    obtain ⟨m', hrun', hm'⟩ := ihr ((s.put (O.value l c)).1.wait op) (O.value l c).2
      (Nat.le_succ_of_le hs)
      (fun op₀ _ h => by
        cases h
        exact Nat.lt_succ_self _)
      fun op' hop' => F.tighter hop' hop
    refine ⟨m', ?_, fun least hleast => ?_⟩
    · rw [List.foldlM_append, hrun]
      show E.feed m (.operator op) >>= _ = _
      rw [hfeed]
      exact hrun'
    · rw [hm' least (Nat.le_succ_of_le (Nat.le_trans hleast hle))]
      exact O.unwindTo_put_wait hop (Nat.le_trans hleast hle) hs _ _

/-- Evaluation of an expression leaves the value of its tree. -/
theorem eval_of_reads (O : Operations F E) (h : F.Reads 0 items t) (c : σ) :
    E.eval items ({}, c) = (.ok [(O.value t c).1], (O.value t c).2) := by
  obtain ⟨m, hrun, hm⟩ := O.feed_reads h {} c (Nat.le_refl _) (fun op operators h => by cases h)
    fun _ _ => Nat.zero_le _
  rw [E.eval_of_feed hrun, Evaluator.finish, (E.unwind_all m).trans (hm 0 (Nat.le_refl 0))]
  rfl

end Operations

/-! ## The tree is unique -/

namespace Tree

/-- The tree with other operands. -/
def map (f : α → β) : Tree α ω → Tree β ω
  | operand a => operand (f a)
  | after t op => after (t.map f) op
  | between l op r => between (l.map f) op (r.map f)

end Tree

/-- The item with another operand. -/
def Item.map (f : α → β) : Item α ω → Item β ω
  | operand a => operand (f a)
  | operator op => operator op
  | openGroup => openGroup
  | closeGroup => closeGroup

namespace Fixity

variable {F : Fixity ω} {n : Nat} {items : List (Item α ω)} {row : List ω} {x t : Tree α ω}

theorem Row.map (h : F.Row x row t) (f : α → β) : F.Row (x.map f) row (t.map f) := by
  induction h with
  | nil x => exact .nil _
  | cons hop hbefore hbehind _ _ ihy ihz => exact .cons hop hbefore hbehind ihy ihz

theorem map_row (f : α → β) (row : List ω) :
    (row.map Item.operator).map (Item.map f) = row.map .operator := by
  rw [List.map_map]
  rfl

theorem Reads.map (h : F.Reads n items t) (f : α → β) :
    F.Reads n (items.map (Item.map f)) (t.map f) := by
  induction h with
  | operand hrow =>
    rw [List.map_cons, map_row]
    exact .operand (hrow.map f)
  | group _ hrow ih =>
    rw [List.map_append, List.map_cons, List.map_cons, map_row]
    exact .group ih (hrow.map f)
  | between hop hle _ _ ihl ihr =>
    rw [List.map_append, List.map_cons]
    exact .between hop hle ihl ihr

/-- Applies operators to operands, in a context. An operator that lacks operands takes those that are there,
and fails. -/
def evaluator (F : Fixity ω) (after : ω → α → σ → α × σ) (between : ω → α → α → σ → α × σ)
    (missing : ω → List α → ε) (unopened unterminated : ε) : Evaluator σ α ω ε where
  precedence := F.precedence
  evaluate op c := .pop fun
    | none => .done (.error (missing op []), c)
    | some b =>
      if F.isAfter op then .push (after op b c).1 (.done (.ok (), (after op b c).2))
      else .pop fun
        | none => .done (.error (missing op [b]), c)
        | some a => .push (between op a b c).1 (.done (.ok (), (between op a b c).2))
  unopened _ := unopened
  unterminated _ := unterminated

theorem pop_run {floor : Nat} {a : α} {rest : List α} (next : Option α → Program α ρ)
    (h : floor ≤ rest.length) :
    (Program.pop next).run floor (a :: rest) = (next (some a)).run floor rest :=
  if_neg (Nat.not_le_of_lt (Nat.lt_succ_of_le h))

def operations (F : Fixity ω) (after : ω → α → σ → α × σ) (between : ω → α → α → σ → α × σ)
    (missing : ω → List α → ε) (unopened unterminated : ε) :
    Operations F (F.evaluator after between missing unopened unterminated) where
  after := after
  between := between
  precedence_eq := rfl
  run_after hop hfloor := by
    rw [evaluator, pop_run _ hfloor]
    dsimp only
    rw [if_pos hop]
    rfl
  run_between hop hfloor := by
    rw [evaluator, pop_run _ (Nat.le_succ_of_le hfloor)]
    dsimp only
    rw [if_neg (Bool.eq_false_iff.1 hop), pop_run _ hfloor]
    rfl

/-- Makes a tree of operators and operands. -/
def builder (F : Fixity ω) : Evaluator Unit (Tree α ω) ω Unit :=
  F.evaluator (fun op t _ => (.after t op, ())) (fun op l r _ => (.between l op r, ()))
    (fun _ _ => ()) () ()

def builds (F : Fixity ω) : Operations F (F.builder (α := α)) := F.operations _ _ _ _ _

theorem value_builds (F : Fixity ω) (t : Tree α ω) :
    F.builds.value (t.map .operand) () = (t, ()) := by
  induction t with
  | operand a => rfl
  | after t op ih =>
    show Operations.after F.builds op _ _ = _
    rw [ih]
    rfl
  | between l op r ihl ihr =>
    show Operations.between F.builds op _ _ _ = _
    rw [ihl, ihr]
    rfl

/-- An expression has at most one tree. -/
theorem Reads.unique {t' : Tree α ω} (h : F.Reads 0 items t) (h' : F.Reads 0 items t') : t' = t := by
  have heval := F.builds.eval_of_reads (h.map .operand) ()
  rw [F.builds.eval_of_reads (h'.map .operand) (), value_builds, value_builds] at heval
  simpa using heval

end Fixity

/-! ## Each operator is applied once -/

namespace Program

/-- The program with another result. -/
def map (f : ρ → τ) : Program α ρ → Program α τ
  | done result => done (f result)
  | push a next => push a (next.map f)
  | pop next => pop fun a => (next a).map f

theorem run_map (f : ρ → τ) (p : Program α ρ) (floor : Nat) (operands : List α) :
    (p.map f).run floor operands = (f (p.run floor operands).1, (p.run floor operands).2) := by
  induction p generalizing operands with
  | done result => rfl
  | push a next ih => exact ih (a :: operands)
  | pop next ih =>
    rw [map, run, run]
    split
    · exact ih none operands
    · exact ih _ _

end Program

/-- The evaluator that notes the operators in the order in which they are applied. -/
def Evaluator.noting (E : Evaluator σ α ω ε) : Evaluator (σ × List ω) α ω ε where
  precedence := E.precedence
  evaluate op c := (E.evaluate op c.1).map fun r => (r.1, r.2, c.2 ++ [op])
  unopened c := E.unopened c.1
  unterminated c := E.unterminated c.1

namespace Operations

variable {F : Fixity ω} {E : Evaluator σ α ω ε}

def noting (O : Operations F E) : Operations F E.noting where
  after op a c := ((O.after op a c.1).1, (O.after op a c.1).2, c.2 ++ [op])
  between op a b c := ((O.between op a b c.1).1, (O.between op a b c.1).2, c.2 ++ [op])
  precedence_eq := O.precedence_eq
  run_after hop hfloor := by
    rw [Evaluator.noting, Program.run_map, O.run_after hop hfloor]
  run_between hop hfloor := by
    rw [Evaluator.noting, Program.run_map, O.run_between hop hfloor]

theorem value_noting (O : Operations F E) (t : Tree α ω) (c : σ) (noted : List ω) :
    O.noting.value t (c, noted) = ((O.value t c).1, (O.value t c).2, noted ++ t.postorder) := by
  induction t generalizing c noted with
  | operand a => simp [value, Tree.postorder]
  | after t op ih =>
    rw [value, ih, Tree.postorder, ← List.append_assoc]
    rfl
  | between l op r ihl ihr =>
    rw [value, ihl, ihr, Tree.postorder, ← List.append_assoc, ← List.append_assoc]
    rfl

end Operations

/-! ## The operators of an interpretation -/

namespace Interpretation

variable {A : Algebra α ω ε} (I : Interpretation A)

/-- How tightly the operators bind, and which stand after their operand. -/
def fixity : Fixity ω where
  precedence := A.precedence
  isAfter op := I.completes (.operator op)
  tighter := precedence_lt

/-- What an operator after its operand makes of it. -/
def ofOne (op : ω) (a : α) : α :=
  match I.meaning op with
  | .after f => f a
  | .between _ => a

/-- What an operator between two operands makes of them. -/
def ofTwo (op : ω) (a b : α) : α :=
  match I.meaning op with
  | .after _ => b
  | .between f => f a b

/-- The error for an operator that has no more than these operands. -/
def missing (_ : Interpretation A) (op : ω) (operands : List α) : ε :=
  match A.apply op operands with
  | .error e => e
  | .ok _ => A.unopened

/-- Applies the operators as the algebra does. -/
def evaluator : Evaluator σ α ω ε :=
  I.fixity.evaluator (fun op a c => (I.ofOne op a, c)) (fun op a b c => (I.ofTwo op a b, c)) I.missing
    A.unopened A.unterminated

def operations : Operations I.fixity (I.evaluator (σ := σ)) := I.fixity.operations _ _ _ _ _

theorem missing_eq {op : ω} {operands : List α} {e : ε} (h : A.apply op operands = .error e) :
    I.missing op operands = e := by
  rw [missing, h]

theorem computes : (I.evaluator (σ := σ)).Computes A where
  precedence_eq := rfl
  unopened_eq _ := rfl
  unterminated_eq _ := rfl
  run_of_ok {op c operands result} h := by
    cases hop : I.meaning op with
    | after f =>
      obtain ⟨a, rest, rfl, rfl⟩ := (I.apply_after_iff hop).1 h
      rw [(I.operations (σ := σ)).run_after (completes_after hop) (Nat.zero_le _)]
      show ((Except.ok (), c), I.ofOne op a :: rest) = _
      rw [ofOne, hop]
    | between f =>
      obtain ⟨a, b, rest, rfl, rfl⟩ := (I.apply_between_iff hop).1 h
      rw [(I.operations (σ := σ)).run_between (completes_between hop) (Nat.zero_le _)]
      show ((Except.ok (), c), I.ofTwo op a b :: rest) = _
      rw [ofTwo, hop]
  run_of_error {op c operands e} h := by
    rcases operands with _ | ⟨b, rest⟩
    · exact ⟨[], congrArg (fun e => ((Except.error e, c), [])) (I.missing_eq h)⟩
    cases hop : I.meaning op with
    | after f => cases h.symm.trans ((I.apply_after_iff hop).2 ⟨b, rest, rfl, rfl⟩)
    | between f =>
      rcases rest with _ | ⟨a, rest⟩
      · refine ⟨[], ?_⟩
        have hbetween : ¬I.fixity.isAfter op = true := Bool.eq_false_iff.1 (completes_between hop)
        rw [evaluator, Fixity.evaluator, Fixity.pop_run _ (Nat.zero_le _)]
        dsimp only
        rw [if_neg hbetween, ← I.missing_eq h]
        rfl
      · cases h.symm.trans ((I.apply_between_iff hop).2 ⟨a, b, rest, rfl, rfl⟩)

end Interpretation

/-! ## The value of an expression -/

namespace Operations

/-- An expression has one tree, in which operators that bind tighter are nearer to their operands, equal
ones go from left to right, and groups stay together. Evaluation of the expression leaves exactly the
value of this tree. It applies each operator of the expression once, and after those of its operands. -/
theorem eval_of_wellFormed {F : Fixity ω} {E : Evaluator σ α ω ε} (O : Operations F E)
    {items : List (Item α ω)} (h : F.WellFormed items) (c : σ) :
    ∃ t : Tree α ω, F.Reads 0 items t ∧ (∀ t', F.Reads 0 items t' → t' = t) ∧
      t.inorder.Perm (items.filter fun item => !item.isBracket) ∧
      ((∀ op op', F.isAfter op = true → F.isAfter op' = true → F.precedence op = F.precedence op') →
        t.inorder = items.filter fun item => !item.isBracket) ∧
      E.eval items ({}, c) = (.ok [(O.value t c).1], (O.value t c).2) ∧
      E.noting.eval items ({}, c, []) = (.ok [(O.value t c).1], (O.value t c).2, t.postorder) ∧
      t.postorder.Perm (items.filterMap Item.operator?) ∧
      ∀ A : Algebra α ω ε, E.Computes A →
        (items.foldlM (Stack.feed A) {} >>= fun s => s.complete A) = .ok [(O.value t c).1] := by
  obtain ⟨t, ht⟩ := h.exists_reads
  have heval := O.eval_of_reads ht c
  refine ⟨t, ht, fun t' ht' => ht.unique ht', ht.inorder_perm, ht.inorder_eq, heval, ?_, ?_, ?_⟩
  · rw [O.noting.eval_of_reads ht, value_noting]
    rfl
  · exact t.postorder_perm.trans ((ht.inorder_perm.filterMap _).trans (.of_eq filterMap_unbracketed))
  · intro A hA
    have hframes := hA.eval_eq items {} c
    exact congrArg Prod.fst (hframes.symm.trans heval)

/-- In `a|(b|c)*d` the group is repeated and `d` follows it, and both are an alternative to `a`. -/
theorem eval_of_wellFormed_alternatives :
    let F := Regex.interpretation.fixity
    let group : List (Item Regex Regex.Operator) :=
      [.operand (.embed "b"), .operator .alt, .operand (.embed "c")]
    let items := [.operand (.embed "a")] ++ .operator .alt ::
      ((.openGroup :: group ++ [.closeGroup] ++ [.operator .star]) ++ .operator .concat ::
        [.operand (.embed "d")])
    let tree : Tree Regex Regex.Operator :=
      .between (.operand (.embed "a")) .alt
        (.between (.after (.between (.operand (.embed "b")) .alt (.operand (.embed "c"))) .star) .concat
          (.operand (.embed "d")))
    F.WellFormed items ∧ F.Reads 0 items tree ∧ tree.postorder = [.alt, .star, .concat, .alt] ∧
      (items.foldlM (Stack.feed Regex.algebra) {} >>= fun s => s.complete Regex.algebra) =
        .ok [.alt (.embed "a") (.concat (.star (.alt (.embed "b") (.embed "c"))) (.embed "d"))] := by
  intro F group items tree
  have hoperand (a : Regex) : F.WellFormed [.operand a] := .operand a
  have hgroup : F.WellFormed group := .between rfl (hoperand _) (hoperand _)
  have hitems : F.WellFormed items :=
    .between rfl (hoperand _) (.between rfl (.after rfl (.group hgroup)) (hoperand _))
  have hstar (x : Tree Regex Regex.Operator) : F.Row x [.star] (.after x .star) :=
    .cons rfl (by simp) (by simp) (.nil x) (.nil x)
  have hread {n : Nat} (a : Regex) : F.Reads n [.operand a] (.operand a) := .operand (.nil _)
  have htree : F.Reads 0 items tree :=
    .between rfl (Nat.zero_le _) (hread _) (.between rfl (Nat.le_refl 2)
      (.group (.between rfl (Nat.zero_le _) (hread _) (hread _)) (hstar _)) (hread _))
  obtain ⟨t, -, hunique, -, -, -, -, -, hstack⟩ :=
    eval_of_wellFormed (Regex.interpretation.operations (σ := Unit)) hitems ()
  obtain rfl := hunique tree htree
  exact ⟨hitems, htree, rfl, hstack Regex.algebra Regex.interpretation.computes⟩

end Operations

end Predictive.Precedence
