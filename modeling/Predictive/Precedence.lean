/-!
# Operator precedence

Evaluation of infix and postfix operators with groups, one token at a time. Operands and operators
wait on a stack; an operator is applied as soon as one that binds no tighter follows it, so tighter
operators are applied first and equal ones from left to right. Every open group has a frame of its
own, so an operator never takes an operand from outside its group.
-/

namespace Predictive.Precedence

/-- The operands and operators that wait in one group, newest first. -/
structure Frame (α ω : Type) where
  operands : List α := []
  operators : List ω := []

/-- The innermost open group, and around it the others up to the whole expression. -/
structure Stack (α ω : Type) where
  inner : Frame α ω := {}
  outer : List (Frame α ω) := []

/-- How the operators of an expression are applied. -/
structure Algebra (α ω ε : Type) where
  /-- How tightly an operator binds. -/
  precedence : ω → Nat
  /-- Replaces the newest operands by the result of an operator on them. -/
  apply : ω → List α → Except ε (List α)
  /-- A group is closed that was not opened. -/
  unopened : ε
  /-- The expression ends in an open group. -/
  unterminated : ε

variable {α ω ε : Type}

namespace Algebra

/-- Applies waiting operators, newest first, as long as they bind at least as tightly as `least`. -/
def reduce (A : Algebra α ω ε) (least : Nat) : List ω → List α → Except ε (Frame α ω)
  | [], operands => .ok { operands }
  | op :: operators, operands =>
    if A.precedence op < least then .ok { operands, operators := op :: operators }
    else do A.reduce least operators (← A.apply op operands)

/-- Applies all waiting operators of a group, newest first. -/
def settle (A : Algebra α ω ε) (f : Frame α ω) : Except ε (List α) :=
  f.operators.foldlM (fun operands op => A.apply op operands) f.operands

end Algebra

namespace Stack

/-- Puts an operand on the stack. -/
def addOperand (s : Stack α ω) (a : α) : Stack α ω :=
  { s with inner := { s.inner with operands := a :: s.inner.operands } }

/-- Puts operands on the stack, which are given newest first. -/
def addOperands (s : Stack α ω) (operands : List α) : Stack α ω :=
  { s with inner := { s.inner with operands := operands ++ s.inner.operands } }

/-- Puts an operator on the stack, after applying those that bind at least as tightly. -/
def addOperator (s : Stack α ω) (A : Algebra α ω ε) (op : ω) : Except ε (Stack α ω) := do
  let inner ← A.reduce (A.precedence op) s.inner.operators s.inner.operands
  return { s with inner := { inner with operators := op :: inner.operators } }

/-- Opens a group. -/
def enter (s : Stack α ω) : Stack α ω := { inner := {}, outer := s.inner :: s.outer }

/-- Closes the innermost group. The results are the operands of the group, newest first, and the
stack as it was when the group was opened. -/
def leave (s : Stack α ω) (A : Algebra α ω ε) : Except ε (List α × Stack α ω) := do
  let operands ← A.settle s.inner
  match s.outer with
  | [] => throw A.unopened
  | frame :: outer => return (operands, { inner := frame, outer })

/-- The operands that are left, newest first, once all operators are applied. -/
def complete (s : Stack α ω) (A : Algebra α ω ε) : Except ε (List α) := do
  let operands ← A.settle s.inner
  if s.outer.isEmpty then return operands else throw A.unterminated

/-- All operands on the stack, newest first, those of outer groups last. -/
def operands (s : Stack α ω) : List α := s.inner.operands ++ s.outer.flatMap (·.operands)

end Stack

end Predictive.Precedence
