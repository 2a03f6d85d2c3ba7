import Predictive.Proofs.ParseStream
import Mathlib.Data.List.Fold
import Mathlib.Data.List.MinMax

/-!
# The machine always comes to a halt

Between two reads, the machine expands a rule only into rules of smaller rank, until it meets a
terminal, and it gets past a rule only if the rule can be empty (`costs_rank`). So a task takes no
more steps than `Machine.taskBound`, and every machine halts within its bound (`alwaysHalts`).
-/

namespace Predictive.Parse

open Grammar (Firsts)

/-- With lookahead `t`, machines with that stack come to a halt within `n` steps. -/
def HaltsAt (g : Grammar) (t : Token) (n : Nat) (stack : List Task) : Prop :=
  ∀ nodes root, ∃ halt, Machine.settle g t n { stack, nodes, root } = some halt

variable {g : Grammar} {t : Token} {n k : Nat} {stack rest : List Task}

theorem settle_mono {m : Machine} {halt : Halt} (h : m.settle g t n = some halt) (hnk : n ≤ k) :
    m.settle g t k = some halt := by
  induction n generalizing m k with
  | zero => cases h
  | succ n ih =>
    obtain ⟨k, rfl⟩ : ∃ j, k = j + 1 := ⟨k - 1, by omega⟩
    unfold Machine.settle at h ⊢
    split at h
    · exact ih h (by omega)
    · exact h

theorem HaltsAt.mono (h : HaltsAt g t n stack) (hnk : n ≤ k) : HaltsAt g t k stack := by
  intro nodes root
  obtain ⟨halt, hsettle⟩ := h nodes root
  exact ⟨halt, settle_mono hsettle hnk⟩

/-- A machine halts if its next step halts or leads to one that does. -/
theorem HaltsAt.of_step (h : ∀ nodes root,
      (∃ halt, Machine.step g t { stack, nodes, root } = .inr halt) ∨
        ∃ next : Machine, HaltsAt g t n next.stack ∧
          Machine.step g t { stack, nodes, root } = .inl next) :
    HaltsAt g t (n + 1) stack := by
  intro nodes root
  unfold Machine.settle
  rcases h nodes root with ⟨halt, hstep⟩ | ⟨next, hnext, hstep⟩
  · exact ⟨halt, by rw [hstep]⟩
  · rw [hstep]
    exact hnext next.nodes next.root

/-! ## Tasks other than rules -/

theorem haltsAt_nil : HaltsAt g t 1 [] :=
  HaltsAt.of_step (n := 0) fun _ _ => .inl ⟨_, rfl⟩

theorem haltsAt_terminal (name : String) (id : Nat) :
    HaltsAt g t 1 (.expect (.terminal name id) :: rest) := by
  refine HaltsAt.of_step (n := 0) fun nodes root => .inl ?_
  unfold Machine.step
  dsimp only
  split
  · exact ⟨_, rfl⟩
  · split <;> exact ⟨_, rfl⟩

theorem stack_closeNode (m : Machine) : m.closeNode.stack = m.stack := by
  unfold Machine.closeNode
  split
  · rfl
  · rfl
  · split <;> rfl

theorem haltsAt_close (h : HaltsAt g t n rest) : HaltsAt g t (n + 1) (.close :: rest) :=
  .of_step fun nodes root => .inr ⟨_, (stack_closeNode { stack := rest, nodes, root }).symm ▸ h, rfl⟩

theorem haltsAt_empty (h : HaltsAt g t n rest) : HaltsAt g t (n + 1) (.expect .empty :: rest) :=
  .of_step fun nodes root => .inr ⟨{ stack := rest, nodes, root }, h, rfl⟩

/-! ## Rules -/

/-- Getting past a rule takes no more than `c` steps, and only happens if the rule can be empty. -/
def Costs (g : Grammar) (t : Token) (c r : Nat) : Prop :=
  ∀ name rest n, ((g.firsts.get r).nullable = true → HaltsAt g t n rest) →
    HaltsAt g t (n + c) (.expect (.rule name r) :: rest)

/-- A run of symbols takes as long as its rules up to the first that is not empty. -/
theorem haltsAt_tasks {c : Nat} (hc : 0 < c) {ss : List Grammar.Symbol}
    (hcosts : g.firsts.Consults (Costs g t c) ss)
    (h : (g.firsts.sequence ss).nullable = true → HaltsAt g t n rest) :
    HaltsAt g t (n + ss.length * c) (tasks ss ++ rest) := by
  induction ss with
  | nil => simpa using h rfl
  | cons s ss ih =>
    have hlen : (s :: ss).length * c = ss.length * c + c := by
      rw [List.length_cons, Nat.succ_mul]
    cases s with
    | empty =>
      rw [tasks_empty]
      exact (ih hcosts h).mono (by omega)
    | terminal name id => exact (haltsAt_terminal name id).mono (by omega)
    | rule name r =>
      obtain ⟨hr, hrest⟩ := hcosts
      have hpast := hr name (tasks ss ++ rest) (n + ss.length * c) fun hnull => by
        refine ih (hrest hnull) fun hss => h ?_
        simp only [Firsts.sequence, hnull]
        exact hss
      exact hpast.mono (by omega)

/-- The number of symbols of the longest alternative. -/
def width (g : Grammar) : Nat := (g.alternatives.map fun a => a.2.sequence.length).foldl max 0

theorem length_le_width {r i : Nat} {a : Grammar.Alternative Grammar.Symbol}
    (ha : (i, a) ∈ g.alternativesOf r) : a.sequence.length ≤ width g := by
  have hmem := Grammar.RuleSet.mem_alternatives_of_mem_alternativesOf ha
  have hlen : a.sequence.length ∈ g.alternatives.map fun a => a.2.sequence.length :=
    List.mem_map.2 ⟨(i, a), hmem, rfl⟩
  unfold width
  rw [List.foldl_eq_foldr]
  exact List.le_max_of_le' 0 hlen le_rfl

/-- An expanded rule leaves the symbols of the alternative to find, and perhaps a node to close. -/
theorem stack_expand (a : Grammar.Alternative Grammar.Symbol) (nodes : List OpenNode)
    (root : Option Node) : (Machine.expand { stack, nodes, root } a).stack =
      tasks a.sequence ++ ((if a.subrule then [] else [.close]) ++ stack) := by
  cases hsub : a.subrule with
  | true =>
    rw [Machine.expand_of_subrule hsub]
    rfl
  | false =>
    rw [Machine.expand_of_not_subrule hsub]
    rfl

theorem Costs.mono {c d r : Nat} (h : Costs g t c r) (hcd : c ≤ d) : Costs g t d r :=
  fun name rest n hrest => (h name rest n hrest).mono (by omega)

/-- The cost of a rule by its rank. -/
theorem costs_rank (hg : g.Compiled) (hr : g.Resolved) (t : Token) (r : Nat) :
    Costs g t ((width g + 2) ^ (g.firsts.rank r + 1)) r := by
  induction hrank : g.firsts.rank r using Nat.strong_induction_on generalizing r with
  | _ rank ih =>
    subst hrank
    intro name rest n hrest
    have hpos : 0 < (width g + 2) ^ g.firsts.rank r := Nat.pow_pos (by omega)
    -- The symbols of an alternative, closing its node, and what comes after the rule.
    have hexpanded : ∀ i a, (i, a) ∈ g.alternativesOf r →
        HaltsAt g t (n + 1 + width g * (width g + 2) ^ g.firsts.rank r)
          (tasks a.sequence ++ ((if a.subrule then [] else [.close]) ++ rest)) := by
      intro i a ha
      have hcosts := (Grammar.RuleSet.consults_rank hr hg.firsts ha).mono fun q hq =>
        (ih _ hq q rfl).mono (Nat.pow_le_pow_right (by omega) hq)
      have hclose : (g.firsts.sequence a.sequence).nullable = true →
          HaltsAt g t (n + 1) ((if a.subrule then [] else [.close]) ++ rest) := by
        intro hnull
        have hget : (g.firsts.get r).nullable = true := by
          rw [Grammar.RuleSet.get_firsts hr hg.firsts, Firsts.nullable_union]
          exact ⟨(i, a), ha, hnull⟩
        split
        · exact (hrest hget).mono (Nat.le_succ n)
        · exact haltsAt_close (hrest hget)
      exact (haltsAt_tasks hpos hcosts hclose).mono
        (Nat.add_le_add_left (Nat.mul_le_mul_right _ (length_le_width ha)) _)
    have hstep : HaltsAt g t (n + 1 + width g * (width g + 2) ^ g.firsts.rank r + 1)
        (.expect (.rule name r) :: rest) := by
      refine .of_step fun nodes root => ?_
      cases hchoice : (g.terminalNumber? t.name).bind (g.choice? r) with
      | none =>
        refine .inl ⟨.fail (.unexpectedToken name t.name t.lexeme t.line), ?_⟩
        simp only [Machine.step, hchoice]
      | some a =>
        obtain ⟨i, ha⟩ := hg.exists_mem_of_choice hr hchoice
        refine .inr ⟨Machine.expand { stack := rest, nodes, root } a, ?_, ?_⟩
        · rw [stack_expand]
          exact hexpanded i a ha
        · simp only [Machine.step, hchoice]
    refine hstep.mono ?_
    rw [Nat.pow_succ, Nat.mul_add, Nat.mul_comm]
    omega

/-! ## The bound -/

theorem taskBound_eq (g : Grammar) :
    Machine.taskBound g = (width g + 2) ^ (g.rules.length + 1) := rfl

theorem haltsAt_stack (hg : g.Compiled) (hr : g.Resolved) (t : Token) (stack : List Task) :
    HaltsAt g t (stack.length * Machine.taskBound g + 1) stack := by
  have hpos : 0 < Machine.taskBound g := Nat.pow_pos (by omega)
  induction stack with
  | nil => exact haltsAt_nil.mono (by omega)
  | cons task stack ih =>
    have hlen : (task :: stack).length * Machine.taskBound g =
        stack.length * Machine.taskBound g + Machine.taskBound g := by
      rw [List.length_cons, Nat.succ_mul]
    cases task with
    | close => exact (haltsAt_close ih).mono (by omega)
    | expect s =>
      cases s with
      | empty => exact (haltsAt_empty ih).mono (by omega)
      | terminal name id => exact (haltsAt_terminal name id).mono (by omega)
      | rule name r =>
        have hrank := Grammar.RuleSet.rank_le_length hr hg.firsts r
        have hcost : (width g + 2) ^ (g.firsts.rank r + 1) ≤ Machine.taskBound g := by
          rw [taskBound_eq]
          exact Nat.pow_le_pow_right (by omega) (by omega)
        exact ((costs_rank hg hr t r).mono hcost name stack _ fun _ => ih).mono (by omega)

/-- With any lookahead token, every machine of a compiled grammar halts within its bound. -/
theorem alwaysHalts (hg : g.Compiled) (hr : g.Resolved) : AlwaysHalts g := by
  intro m t
  have hpos : 0 < Machine.taskBound g := Nat.pow_pos (by omega)
  obtain ⟨halt, hsettle⟩ := haltsAt_stack hg hr t m.stack m.nodes m.root
  refine ⟨halt, settle_mono hsettle ?_⟩
  unfold Machine.bound
  rw [Nat.succ_mul]
  omega

end Predictive.Parse
