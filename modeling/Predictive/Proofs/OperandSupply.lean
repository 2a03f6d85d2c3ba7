import Predictive.Proofs.Precedence

/-!
# Operands that are supplied

Where an operator joins operands side by side, and binds tightest of those between operands, it always
finds its operands (`Interpretation.Supplied.apply`), and a group or an expression leaves exactly one
operand when it ends, or none if nothing stands in it (`Interpretation.Supplied.settle`). Both hold
whatever stands on the stack. They follow from four facts about each frame that every item keeps
(`Interpretation.Supplied`).
-/

namespace Predictive.Precedence

variable {α ω ε ε' : Type}

/-- There is exactly one operand, or none where there is nothing to leave one. -/
def LeavesOne (nothing : Prop) (operands : List α) : Prop :=
  (nothing ∧ operands = []) ∨ (¬nothing ∧ ∃ a, operands = [a])

theorem LeavesOne.congr {p q : Prop} {operands : List α} (h : LeavesOne p operands) (hpq : p ↔ q) :
    LeavesOne q operands := by
  rwa [propext hpq] at h

/-- All errors satisfy `P`, except for those of the operator `join`. -/
structure Algebra.FailsOtherwise (B : Algebra α ω ε) (join : ω) (P : ε → Prop) : Prop where
  apply : ∀ {op operands e}, op ≠ join → B.apply op operands = .error e → P e
  unopened : P B.unopened
  unterminated : P B.unterminated

namespace Interpretation

variable {A : Algebra α ω ε}

/-- The operator stands between operands, and binds tightest of those that do. -/
structure Tightest (I : Interpretation A) (join : ω) : Prop where
  completes : I.completes (.operator join) = false
  completes_of_lt : ∀ {op}, A.precedence join < A.precedence op → I.completes (.operator op) = true

/-- What holds of a frame after an item, where `ended` tells whether this was the end of an operand, and
`due` whether the operand that follows an operator `join` is about to begin. -/
structure Supplied (I : Interpretation A) (join : ω) (ended due : Bool) (f : Frame α ω) : Prop where
  /-- Each operator binds tighter than those before it. -/
  sorted : f.operators.Pairwise fun op op' => A.precedence op' < A.precedence op
  /-- There are no more operands than the operators between them take. -/
  bounded : f.operands.length ≤ I.betweens f.operators + ended.toNat
  /-- An operator `join` has both of its operands. -/
  enough : join ∈ f.operators → 2 ≤ f.operands.length + due.toNat
  /-- An operand that has ended is there, or will be the result of an operator. -/
  stands : ended = true → f.operands ≠ [] ∨
    ∃ op operators, f.operators = op :: operators ∧ I.completes (.operator op) = true

variable {I : Interpretation A} {join op : ω} {ended due : Bool} {f : Frame α ω}
  {B : Algebra α ω ε'} {P : ε' → Prop}

theorem Supplied.empty (I : Interpretation A) (join : ω) : I.Supplied join false false {} where
  sorted := .nil
  bounded := Nat.le_refl 0
  enough h := absurd h List.not_mem_nil
  stands := nofun

theorem Supplied.awaits (h : I.Supplied join ended due f) : I.Supplied join ended true f where
  sorted := h.sorted
  bounded := h.bounded
  enough hjoin := Nat.le_trans (h.enough hjoin) (Nat.add_le_add_left (Bool.toNat_le due) _)
  stands := h.stands

theorem Supplied.operand (h : I.Supplied join false due f) (a : α) :
    I.Supplied join true false { f with operands := a :: f.operands } where
  sorted := h.sorted
  bounded := Nat.succ_le_succ h.bounded
  enough hjoin := Nat.le_trans (h.enough hjoin) (Nat.add_le_add_left (Bool.toNat_le due) _)
  stands _ := .inl (List.cons_ne_nil _ _)

/-! ## Applying operators -/

/-- An operator `join` finds its operands; what fails is another operator. -/
theorem Supplied.apply (hjoin : I.Tightest join) (hB : A.Agrees B) (hP : B.FailsOtherwise join P)
    {operators : List ω} {operands : List α}
    (h : I.Supplied join ended false { operands, operators := op :: operators }) :
    Guarantees P (fun rest => I.Supplied join ended false { operands := rest, operators })
      (B.apply op operands) := by
  obtain ⟨hbelow, hsorted⟩ := List.pairwise_cons.1 h.sorted
  have hbounded := h.bounded
  cases happly : B.apply op operands with
  | ok rest =>
    obtain ⟨hlength, hpos⟩ := length_of_apply (I := I) (hB.apply_iff.2 happly)
    dsimp only at hbounded
    rw [betweens_cons] at hbounded
    refine .ok ⟨hsorted, ?_, fun hmem => ?_, fun _ => .inl (List.ne_nil_of_length_pos hpos)⟩
    · show rest.length ≤ I.betweens operators + ended.toNat
      omega
    · have henough := h.enough (List.mem_cons_of_mem _ hmem)
      rw [hjoin.completes_of_lt (hbelow join hmem)] at hlength
      exact Nat.le_trans henough (Nat.le_of_eq hlength.symm)
  | error e =>
    refine .error (hP.apply ?_ happly)
    rintro rfl
    have henough : 2 ≤ operands.length := h.enough List.mem_cons_self
    obtain ⟨b, a, rest, rfl⟩ : ∃ b a rest, operands = b :: a :: rest := by
      rcases operands with _ | ⟨b, _ | ⟨a, rest⟩⟩
      · cases henough
      · exact absurd henough (Nat.lt_irrefl 1)
      · exact ⟨b, a, rest, rfl⟩
    cases hmeaning : I.meaning op with
    | after g => exact absurd (completes_after hmeaning) (Bool.eq_false_iff.1 hjoin.completes)
    | between g =>
      have hok := hB.apply_iff.1 ((I.apply_between_iff hmeaning).2 ⟨a, b, rest, rfl, rfl⟩)
      cases happly.symm.trans hok

theorem Supplied.reduce (hjoin : I.Tightest join) (hB : A.Agrees B) (hP : B.FailsOtherwise join P)
    (h : I.Supplied join ended false f) (least : Nat) :
    Guarantees P (fun g => I.Supplied join ended false g ∧ ∀ op ∈ g.operators, A.precedence op < least)
      (B.reduce least f.operators f.operands) := by
  obtain ⟨operands, operators⟩ := f
  induction operators generalizing operands with
  | nil => exact .ok ⟨h, fun op hop => absurd hop List.not_mem_nil⟩
  | cons op operators ih =>
    dsimp only
    rw [Algebra.reduce, ← hB.precedence_eq]
    split
    · next hlt =>
      refine .ok ⟨h, fun op' hop' => ?_⟩
      rcases List.mem_cons.1 hop' with rfl | hop'
      · exact hlt
      · exact Nat.lt_trans ((List.pairwise_cons.1 h.sorted).1 op' hop') hlt
    · exact (h.apply hjoin hB hP).bind fun rest hrest => ih rest hrest

/-- A frame leaves one operand when all its operators are applied, or none if it is empty. -/
theorem Supplied.settle (hjoin : I.Tightest join) (hB : A.Agrees B) (hP : B.FailsOtherwise join P)
    (h : I.Supplied join ended false f) : Guarantees P (LeavesOne (f = {})) (B.settle f) := by
  have hreduce := h.reduce hjoin hB hP 0
  rw [settle_eq]
  cases hg : B.reduce 0 f.operators f.operands with
  | error e => exact .error (hreduce.of_error hg)
  | ok g =>
    obtain ⟨hsupplied, hnone⟩ := hreduce.of_ok hg
    have hoperators : g.operators = [] :=
      List.eq_nil_iff_forall_not_mem.2 fun op hop => Nat.not_lt_zero _ (hnone op hop)
    have hle : g.operands.length ≤ 1 := by
      have hbounded := hsupplied.bounded
      rw [hoperators] at hbounded
      exact Nat.le_trans hbounded ((Nat.zero_add _).symm ▸ Bool.toNat_le ended)
    have hpos := (reduce_zero I (hB.reduce_iff.2 hg)).2
    obtain ⟨operands, _ | ⟨op, operators⟩⟩ := f
    · -- without operators the operands are left as they are
      refine .ok ?_
      obtain rfl : ({ operands } : Frame α ω) = g := Except.ok.inj hg
      rcases operands with _ | ⟨a, _ | ⟨b, rest⟩⟩
      · exact .inl ⟨rfl, rfl⟩
      · exact .inr ⟨nofun, a, rfl⟩
      · exact absurd hle (by simp)
    · have hlength : g.operands.length = 1 := Nat.le_antisymm hle (hpos (List.cons_ne_nil _ _))
      exact .ok (.inr ⟨nofun, List.length_eq_one_iff.1 hlength⟩)

/-! ## The stack -/

/-- What holds of a stack after an item. In each group around the innermost, the operand that follows an
operator `join` is about to begin. -/
structure Ready (I : Interpretation A) (join : ω) (ended due : Bool) (s : Stack α ω) : Prop where
  inner : I.Supplied join ended due s.inner
  outer : ∀ f ∈ s.outer, I.Supplied join false true f

/-- The innermost group has just been opened if and only if `opens` holds, and is empty only then. -/
structure Opens (opens : Prop) (s : Stack α ω) : Prop where
  inner_iff : s.inner = {} ↔ opens
  outer : opens → s.outer ≠ []

variable {s : Stack α ω}

theorem Opens.of_ne {opens : Prop} (hs : s.inner ≠ {}) (hopens : ¬opens) : Opens opens s :=
  ⟨iff_of_false hs hopens, fun h => absurd h hopens⟩

theorem Opens.enter {opens : Prop} (s : Stack α ω) (hopens : opens) : Opens opens s.enter :=
  ⟨iff_of_true rfl hopens, fun _ => List.cons_ne_nil _ _⟩

namespace Ready

theorem start (I : Interpretation A) (join : ω) : I.Ready join false false {} :=
  ⟨.empty I join, fun _ hf => absurd hf List.not_mem_nil⟩

theorem awaits (h : I.Ready join ended due s) : I.Ready join ended true s := ⟨h.inner.awaits, h.outer⟩

theorem addOperand (h : I.Ready join false due s) (a : α) :
    I.Ready join true false (s.addOperand a) ∧ (s.addOperand a).inner ≠ {} :=
  ⟨⟨h.inner.operand a, h.outer⟩, nofun⟩

theorem enter (h : I.Ready join false due s) : I.Ready join false false s.enter :=
  ⟨.empty I join, List.forall_mem_cons.2 ⟨h.inner.awaits, h.outer⟩⟩

variable (hjoin : I.Tightest join) (hB : A.Agrees B) (hP : B.FailsOtherwise join P)
include hjoin hB hP

/-- An operator other than `join` leaves what it found, and waits for its operand or completes one. -/
theorem addOperator (h : I.Ready join ended false s) (hop : op ≠ join) :
    Guarantees P (fun t => I.Ready join (I.completes (.operator op)) false t ∧ t.inner ≠ {})
      (s.addOperator B op) := by
  refine (h.inner.reduce hjoin hB hP _).bind fun g hg => ?_
  obtain ⟨hg, hlt⟩ := hg
  refine .ok ⟨⟨?_, h.outer⟩, fun hempty => List.cons_ne_nil _ _ (congrArg Frame.operators hempty)⟩
  have hbounded := hg.bounded
  have hended := Bool.toNat_le ended
  refine ⟨List.pairwise_cons.2 ⟨fun op' hop' => ?_, hg.sorted⟩, ?_, fun hmem => ?_, fun hcompletes => ?_⟩
  · rw [hB.precedence_eq] at hlt ⊢
    exact hlt op' hop'
  · dsimp only
    rw [betweens_cons]
    cases I.completes (.operator op) <;> simp only [Bool.not_true, Bool.not_false, Bool.toNat_true,
      Bool.toNat_false] <;> omega
  · exact hg.enough ((List.mem_cons.1 hmem).resolve_left fun h => hop h.symm)
  · exact .inr ⟨op, g.operators, rfl, hcompletes⟩

/-- After an operand, an operator `join` has its left operand. -/
theorem addJoin (h : I.Ready join true false s) :
    Guarantees P (I.Ready join false true) (s.addOperator B join) := by
  refine (h.inner.reduce hjoin hB hP _).bind fun g hg => ?_
  obtain ⟨hg, hlt⟩ := hg
  refine .ok ⟨?_, h.outer⟩
  rw [← hB.precedence_eq] at hlt
  have hne : g.operands ≠ [] := by
    rcases hg.stands rfl with hne | ⟨op, operators, hoperators, hcompletes⟩
    · exact hne
    · -- an operator after its operand binds tighter than `join`, and would have been applied
      refine absurd (precedence_lt hcompletes hjoin.completes) (Nat.lt_asymm (hlt op ?_))
      rw [hoperators]
      exact List.mem_cons_self
  have hbounded := hg.bounded
  refine ⟨List.pairwise_cons.2 ⟨hlt, hg.sorted⟩, ?_, fun _ => ?_, nofun⟩
  · dsimp only
    rw [betweens_cons, hjoin.completes]
    exact hbounded
  · exact Nat.succ_le_succ (List.length_pos_iff.2 hne)

/-- A group leaves one operand, or none if nothing stands in it. -/
theorem leave (h : I.Ready join ended false s) :
    Guarantees P (fun r => LeavesOne (s.inner = {}) r.1 ∧ s.outer ≠ [] ∧ I.Ready join false true r.2)
      (s.leave B) := by
  refine (h.inner.settle hjoin hB hP).bind fun operands hoperands => ?_
  have houter := h.outer
  cases hs : s.outer with
  | nil => exact .error hP.unopened
  | cons f outer =>
    rw [hs] at houter
    obtain ⟨hframe, houter⟩ := List.forall_mem_cons.1 houter
    exact .ok ⟨hoperands, List.cons_ne_nil _ _, hframe, houter⟩

/-- An expression leaves one operand, or none if nothing stands in it. -/
theorem complete (h : I.Ready join ended false s) :
    Guarantees P (fun operands => LeavesOne (s.inner = {}) operands ∧ s.outer = []) (s.complete B) := by
  refine (h.inner.settle hjoin hB hP).bind fun operands hoperands => ?_
  split
  · next hs => exact .ok ⟨hoperands, List.isEmpty_iff.1 hs⟩
  · exact .error hP.unterminated

end Ready

end Interpretation

end Predictive.Precedence
