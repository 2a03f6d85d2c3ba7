import Predictive.Parse.Machine
import Predictive.Proofs.Lookahead

/-!
# Runs of the parsing machine

`Machine.Accepts` says that the machine takes some number of steps over some tokens and accepts with
the last of them as lookahead. The tasks for a run of symbols are done exactly by deriving it: an
accepting run derives the symbols from the first tokens and adds the collapsed derivation to the
innermost node (`exists_derivation_of_accepts`), and what has a derivation is accepted
(`accepts_of_derivation`).
-/

namespace Predictive.Parse

open Grammar (Alternative Derivation)

/-- The tasks of finding the symbols of a run. -/
def tasks (ss : List Grammar.Symbol) : List Task := (ss.filter (· ≠ .empty)).map Task.expect

@[simp] theorem tasks_nil : tasks [] = [] := rfl

@[simp] theorem tasks_empty (ss : List Grammar.Symbol) : tasks (.empty :: ss) = tasks ss := by
  simp [tasks]

@[simp] theorem tasks_terminal (name : String) (id : Nat) (ss : List Grammar.Symbol) :
    tasks (.terminal name id :: ss) = .expect (.terminal name id) :: tasks ss := by simp [tasks]

@[simp] theorem tasks_rule (name : String) (id : Nat) (ss : List Grammar.Symbol) :
    tasks (.rule name id :: ss) = .expect (.rule name id) :: tasks ss := by simp [tasks]

/-! ## Adding children -/

/-- Adds children in order. -/
def OpenNode.addAll (n : OpenNode) (children : List Node) : OpenNode :=
  { n with children := children.reverse ++ n.children }

@[simp] theorem OpenNode.addAll_nil (n : OpenNode) : n.addAll [] = n := rfl

@[simp] theorem OpenNode.addAll_addAll (n : OpenNode) (cs ds : List Node) :
    (n.addAll cs).addAll ds = n.addAll (cs ++ ds) := by
  simp [addAll]

theorem OpenNode.addAll_singleton (n : OpenNode) (c : Node) : n.addAll [c] = n.add c := rfl

/-- The node that an alternative opens. -/
def OpenNode.ofAlternative (a : Alternative Grammar.Symbol) : OpenNode :=
  { name := a.name, multiChild := a.multiChild }

theorem OpenNode.close_ofAlternative (a : Alternative Grammar.Symbol) (children : List Node) :
    ((OpenNode.ofAlternative a).addAll children).close = .rule a.name a.multiChild children := by
  simp [OpenNode.close, OpenNode.addAll, ofAlternative]

namespace Machine

variable {stack rest : List Task} {node parent : OpenNode} {nodes outer : List OpenNode}
  {root : Option Node} {a : Alternative Grammar.Symbol}

theorem closeNode_single (stack : List Task) (node : OpenNode) (root : Option Node) :
    closeNode { stack, nodes := [node], root } = { stack, nodes := [], root := some node.close } :=
  rfl

/-- A node closed inside another is dropped, gives way to its only child, or is kept. -/
theorem closeNode_cases (stack : List Task) (node parent : OpenNode) (outer : List OpenNode)
    (root : Option Node) :
    (node.children = [] ∧ closeNode { stack, nodes := node :: parent :: outer, root } =
      { stack, nodes := parent :: outer, root }) ∨
    (∃ child, node.children = [child] ∧ node.multiChild = true ∧
      closeNode { stack, nodes := node :: parent :: outer, root } =
        { stack, nodes := parent.add child :: outer, root }) ∨
    (node.children ≠ [] ∧ (node.multiChild = true → 2 ≤ node.children.length) ∧
      closeNode { stack, nodes := node :: parent :: outer, root } =
        { stack, nodes := parent.add node.close :: outer, root }) := by
  match hchildren : node.children with
  | [] => exact .inl ⟨rfl, by simp only [closeNode, hchildren]⟩
  | [child] =>
    cases hmark : node.multiChild with
    | true => exact .inr (.inl ⟨child, rfl, rfl, by simp only [closeNode, hchildren, hmark, if_true]⟩)
    | false =>
      refine .inr (.inr ⟨List.cons_ne_nil _ _, nofun, ?_⟩)
      simp only [closeNode, hchildren, hmark, Bool.false_eq_true, if_false]
  | _ :: _ :: _ =>
    refine .inr (.inr ⟨List.cons_ne_nil _ _, fun _ => Nat.le_add_left 2 _, ?_⟩)
    simp only [closeNode, hchildren]

/-- A node closed inside another leaves there what its alternative leaves of its children. -/
theorem closeNode_ofAlternative (ha : a.subrule = false) (children : List Node) :
    closeNode { stack, nodes := (OpenNode.ofAlternative a).addAll children :: parent :: outer, root }
      = { stack, nodes := parent.addAll (a.collapse children) :: outer, root } := by
  have hclose := OpenNode.close_ofAlternative a children
  cases children with
  | nil => simp [closeNode, OpenNode.addAll, OpenNode.ofAlternative, Alternative.collapse, ha]
  | cons c cs =>
    cases cs with
    | nil =>
      have hcollapse : a.collapse [c] =
          [if a.multiChild then c else .rule a.name a.multiChild [c]] := by
        simp [Alternative.collapse, ha]
      rw [hcollapse, OpenNode.addAll_singleton, ← hclose]
      rfl
    | cons d cs =>
      have hcollapse : a.collapse (c :: d :: cs) = [.rule a.name a.multiChild (c :: d :: cs)] := by
        simp [Alternative.collapse, ha]
      obtain ⟨x, y, ys, hreverse⟩ : ∃ x y ys, (c :: d :: cs).reverse = x :: y :: ys := by
        match h : (c :: d :: cs).reverse with
        | [] => simp at h
        | [_] => exact absurd (congrArg List.length h) (by simp)
        | x :: y :: ys => exact ⟨x, y, ys, rfl⟩
      have hchildren :
          ((OpenNode.ofAlternative a).addAll (c :: d :: cs)).children = x :: y :: ys := by
        show (c :: d :: cs).reverse ++ [] = _
        rw [List.append_nil, hreverse]
      rw [hcollapse, OpenNode.addAll_singleton, ← hclose]
      simp only [closeNode, hchildren]

theorem expand_of_subrule (ha : a.subrule = true) :
    expand { stack, nodes, root } a = { stack := tasks a.sequence ++ stack, nodes, root } := by
  simp [expand, tasks, ha]

theorem expand_of_not_subrule (ha : a.subrule = false) :
    expand { stack, nodes, root } a =
      { stack := tasks a.sequence ++ .close :: stack
        nodes := OpenNode.ofAlternative a :: nodes
        root } := by
  simp [expand, tasks, ha, OpenNode.ofAlternative]

/-! ## Accepting runs -/

/-- In `n` steps and reads, the machine goes over the tokens and accepts with the last of them as
lookahead, as the machine `final`. -/
inductive Accepts (g : Grammar) (final : Machine) : Nat → Machine → List Token → Prop
  | accept {m : Machine} {t : Token} (h : m.step g t = .inr (.accept final)) :
    Accepts g final 0 m [t]
  | silent {n : Nat} {m next : Machine} {t : Token} {ts : List Token} (h : m.step g t = .inl next)
    (rest : Accepts g final n next (t :: ts)) : Accepts g final (n + 1) m (t :: ts)
  | read {n : Nat} {m next : Machine} {t : Token} {ts : List Token}
    (h : m.step g t = .inr (.read next)) (rest : Accepts g final n next ts) :
    Accepts g final (n + 1) m (t :: ts)

namespace Accepts

variable {g : Grammar} {final m next : Machine} {n : Nat} {t : Token} {ts w : List Token}
  {name : String} {id : Nat}

theorem exists_cons (h : Accepts g final n m w) : ∃ t ts, w = t :: ts := by
  cases h <;> exact ⟨_, _, rfl⟩

theorem iff_of_silent (hstep : m.step g t = .inl next) :
    Accepts g final n m (t :: ts) ↔ ∃ k, n = k + 1 ∧ Accepts g final k next (t :: ts) := by
  constructor
  · intro h
    cases h with
    | accept h => cases hstep.symm.trans h
    | silent h rest =>
      cases hstep.symm.trans h
      exact ⟨_, rfl, rest⟩
    | read h rest => cases hstep.symm.trans h
  · rintro ⟨k, rfl, h⟩
    exact .silent hstep h

theorem iff_of_read (hstep : m.step g t = .inr (.read next)) :
    Accepts g final n m (t :: ts) ↔ ∃ k, n = k + 1 ∧ Accepts g final k next ts := by
  constructor
  · intro h
    cases h with
    | accept h => cases hstep.symm.trans h
    | silent h rest => cases hstep.symm.trans h
    | read h rest =>
      cases hstep.symm.trans h
      exact ⟨_, rfl, rest⟩
  · rintro ⟨k, rfl, h⟩
    exact .read hstep h

theorem iff_of_accept (hstep : m.step g t = .inr (.accept next)) :
    Accepts g final n m (t :: ts) ↔ n = 0 ∧ ts = [] ∧ final = next := by
  constructor
  · intro h
    cases h with
    | accept h =>
      cases hstep.symm.trans h
      exact ⟨rfl, rfl, rfl⟩
    | silent h rest => cases hstep.symm.trans h
    | read h rest => cases hstep.symm.trans h
  · rintro ⟨rfl, rfl, rfl⟩
    exact .accept hstep

theorem not_of_fail {e : ParseError} (hstep : m.step g t = .inr (.fail e)) :
    ¬ Accepts g final n m (t :: ts) := by
  intro h
  cases h with
  | accept h => cases hstep.symm.trans h
  | silent h rest => cases hstep.symm.trans h
  | read h rest => cases hstep.symm.trans h

/-! ## Accepting runs by the next task -/

theorem close_iff : Accepts g final n { stack := .close :: stack, nodes, root } w ↔
    ∃ k, n = k + 1 ∧ Accepts g final k (closeNode { stack, nodes, root }) w := by
  constructor
  · intro h
    obtain ⟨t, ts, rfl⟩ := h.exists_cons
    exact (iff_of_silent rfl).1 h
  · rintro ⟨k, rfl, h⟩
    obtain ⟨t, ts, rfl⟩ := h.exists_cons
    exact .silent rfl h

/-- A terminal other than the end of the input is read into the innermost node. -/
theorem terminal_iff (hid : id ≠ 0) :
    Accepts g final n { stack := .expect (.terminal name id) :: stack, nodes := node :: outer, root }
      w ↔ ∃ t ts k, w = t :: ts ∧ n = k + 1 ∧ t.name = name ∧
        Accepts g final k
          { stack, nodes := node.addAll [.leaf t.name t.lexeme] :: outer, root } ts := by
  have hread : ∀ t : Token, t.name = name →
      Machine.step g t
          { stack := .expect (.terminal name id) :: stack, nodes := node :: outer, root } =
        .inr (.read { stack, nodes := node.addAll [.leaf t.name t.lexeme] :: outer, root }) := by
    intro t ht
    simp [Machine.step, ht, hid, addLeaf, OpenNode.addAll_singleton]
  constructor
  · intro h
    obtain ⟨t, ts, rfl⟩ := h.exists_cons
    by_cases ht : t.name = name
    · obtain ⟨k, hn, hrest⟩ := (iff_of_read (hread t ht)).1 h
      exact ⟨t, ts, k, rfl, hn, ht, hrest⟩
    · exact absurd h (not_of_fail (if_pos ht))
  · rintro ⟨t, ts, k, rfl, rfl, ht, h⟩
    exact .read (hread t ht) h

/-- The end of the input is accepted. -/
theorem end_iff : Accepts g final n { stack := .expect (.terminal name 0) :: stack, nodes, root } w ↔
    ∃ t, w = [t] ∧ n = 0 ∧ t.name = name ∧ final = { stack, nodes, root } := by
  have haccept : ∀ t : Token, t.name = name →
      Machine.step g t { stack := .expect (.terminal name 0) :: stack, nodes, root } =
        .inr (.accept { stack, nodes, root }) := by
    intro t ht
    simp [Machine.step, ht]
  constructor
  · intro h
    obtain ⟨t, ts, rfl⟩ := h.exists_cons
    by_cases ht : t.name = name
    · obtain ⟨hn, rfl, hfinal⟩ := (iff_of_accept (haccept t ht)).1 h
      exact ⟨t, rfl, hn, ht, hfinal⟩
    · exact absurd h (not_of_fail (if_pos ht))
  · rintro ⟨t, rfl, rfl, ht, rfl⟩
    exact .accept (haccept t ht)

/-- A rule is replaced by the alternative that is chosen on the lookahead token. -/
theorem rule_iff :
    Accepts g final n { stack := .expect (.rule name id) :: stack, nodes, root } w ↔
      ∃ t ts k a, w = t :: ts ∧ n = k + 1 ∧
        (g.terminalNumber? t.name).bind (g.choice? id) = some a ∧
          Accepts g final k (expand { stack, nodes, root } a) w := by
  constructor
  · intro h
    obtain ⟨t, ts, rfl⟩ := h.exists_cons
    cases hchoice : (g.terminalNumber? t.name).bind (g.choice? id) with
    | none =>
      have hfail : Machine.step g t { stack := .expect (.rule name id) :: stack, nodes, root } =
          .inr (.fail (.unexpectedToken name t.name t.lexeme t.line)) := by
        simp only [Machine.step, hchoice]
      exact absurd h (not_of_fail hfail)
    | some a =>
      have hstep : Machine.step g t { stack := .expect (.rule name id) :: stack, nodes, root } =
          .inl (expand { stack, nodes, root } a) := by
        simp only [Machine.step, hchoice]
      obtain ⟨k, hn, hrest⟩ := (iff_of_silent hstep).1 h
      exact ⟨t, ts, k, a, rfl, hn, hchoice, hrest⟩
  · rintro ⟨t, ts, k, a, rfl, rfl, hchoice, h⟩
    refine .silent ?_ h
    simp only [Machine.step, hchoice]

end Accepts

/-! ## Runs derive -/

section

variable {g : Grammar} {final : Machine} {ss : List Grammar.Symbol} {w : List Token} {n : Nat}

/-- No alternative holds the end of the input. -/
def EndFree (g : Grammar.RuleSet) : Prop :=
  ∀ {r k a}, (k, a) ∈ g.alternativesOf r → ∀ name, Grammar.Symbol.terminal name 0 ∉ a.sequence

/-- An accepting run that has the symbols to find derives them from the first tokens; then it goes
on with the nodes of the derivation added to the innermost one. -/
theorem exists_derivation_of_accepts (hg : g.Compiled) (hr : g.Resolved) (hfree : EndFree g.toRuleSet)
    (hss : ∀ name, Grammar.Symbol.terminal name 0 ∉ ss)
    (h : Accepts g final n { stack := tasks ss ++ rest, nodes := node :: outer, root } w) :
    ∃ (d : Derivation g.toRuleSet ss) (v : List Token) (k : Nat), k ≤ n ∧ w = d.tokens ++ v ∧
      Accepts g final k { stack := rest, nodes := node.addAll d.collapse :: outer, root } v := by
  -- Expanding a rule makes the run shorter; passing an empty group makes the symbols fewer.
  induction n using Nat.strong_induction_on generalizing ss rest node outer w with
  | _ n ihn =>
    induction ss with
    | nil => exact ⟨.nil, w, n, le_rfl, rfl, h⟩
    | cons s ss ih =>
      have htail : ∀ name, Grammar.Symbol.terminal name 0 ∉ ss := fun name hmem =>
        hss name (List.mem_cons_of_mem _ hmem)
      cases s with
      | empty =>
        rw [tasks_empty] at h
        obtain ⟨d, v, k, hk, rfl, hrest⟩ := ih htail h
        exact ⟨.empty d, v, k, hk, rfl, hrest⟩
      | terminal name id =>
        have hid : id ≠ 0 := by
          rintro rfl
          exact hss name List.mem_cons_self
        rw [tasks_terminal, List.cons_append, Accepts.terminal_iff hid] at h
        obtain ⟨t, ts, k, rfl, rfl, ht, h⟩ := h
        obtain ⟨d, v, l, hl, rfl, hrest⟩ := ihn k (Nat.lt_succ_self k) htail h
        refine ⟨.terminal t ht d, v, l, by omega, rfl, ?_⟩
        rwa [OpenNode.addAll_addAll] at hrest
      | rule name id =>
        rw [tasks_rule, List.cons_append, Accepts.rule_iff] at h
        obtain ⟨t, ts, k, a, -, rfl, hchoice, h⟩ := h
        obtain ⟨i, ha⟩ := hg.exists_mem_of_choice hr hchoice
        cases hsub : a.subrule with
        | true =>
          rw [expand_of_subrule hsub] at h
          obtain ⟨d, u, l, hl, rfl, hfound⟩ := ihn k (Nat.lt_succ_self k) (hfree ha) h
          obtain ⟨e, v, j, hj, rfl, hrest⟩ := ihn l (by omega) htail hfound
          refine ⟨.rule i a ha d e, v, j, by omega, by simp [Derivation.tokens], ?_⟩
          have hcollapse : a.collapse d.collapse = d.collapse := if_pos hsub
          rw [Derivation.collapse, hcollapse]
          rwa [OpenNode.addAll_addAll] at hrest
        | false =>
          rw [expand_of_not_subrule hsub] at h
          obtain ⟨d, u, l, hl, rfl, hfound⟩ := ihn k (Nat.lt_succ_self k) (hfree ha) h
          obtain ⟨l, rfl, hclosed⟩ := Accepts.close_iff.1 hfound
          rw [closeNode_ofAlternative hsub] at hclosed
          obtain ⟨e, v, j, hj, rfl, hrest⟩ := ihn l (by omega) htail hclosed
          refine ⟨.rule i a ha d e, v, j, by omega, by simp [Derivation.tokens], ?_⟩
          rw [Derivation.collapse]
          rwa [OpenNode.addAll_addAll] at hrest

/-- The alternative of a derivation is chosen, so a rule is accepted where the alternative is. -/
theorem accepts_rule (hg : g.Compiled) (hr : g.Resolved) {name : String} {id i l : Nat}
    (ha : (i, a) ∈ g.alternativesOf id) (d : Derivation g.toRuleSet a.sequence)
    (hw : g.Heads (g.Follows g.firsts id) w)
    (h : Accepts g final l (expand { stack, nodes, root } a) (d.tokens ++ w)) :
    Accepts g final (l + 1) { stack := .expect (.rule name id) :: stack, nodes, root }
      (d.tokens ++ w) := by
  obtain ⟨t, ts, hts⟩ := h.exists_cons
  obtain ⟨x, hname, hx⟩ := hg.heads_predicts hr ha d hw t (by rw [hts]; rfl)
  have hchoice : (g.terminalNumber? t.name).bind (g.choice? id) = some a := by
    rw [hname]
    exact (hg.choice?_eq_some_iff hr).2 ⟨i, ha, hx⟩
  exact Accepts.rule_iff.2 ⟨t, ts, l, a, hts, rfl, hchoice, h⟩

/-- What has a derivation is accepted, if what comes after it is. -/
theorem accepts_of_derivation (hg : g.Compiled) (hr : g.Resolved) (hfree : EndFree g.toRuleSet)
    {W : Nat → Prop} {k : Nat} (d : Derivation g.toRuleSet ss) (hnames : ∀ s ∈ ss, g.Names s)
    (hss : ∀ name, Grammar.Symbol.terminal name 0 ∉ ss) (hallows : g.Allows g.firsts W ss)
    (hw : g.Heads W w)
    (h : Accepts g final k { stack := rest, nodes := node.addAll d.collapse :: outer, root } w) :
    ∃ n, Accepts g final n { stack := tasks ss ++ rest, nodes := node :: outer, root }
      (d.tokens ++ w) := by
  induction d generalizing rest node outer w W k with
  | nil => exact ⟨k, h⟩
  | @empty ss d ih =>
    rw [tasks_empty]
    exact ih (fun s hs => hnames s (List.mem_cons_of_mem _ hs))
      (fun name hmem => hss name (List.mem_cons_of_mem _ hmem)) hallows.tail hw h
  | @terminal name id ss t ht d ih =>
    have hid : id ≠ 0 := by
      rintro rfl
      exact hss name List.mem_cons_self
    change Accepts g final k
      { stack := rest
        nodes := node.addAll ([.leaf t.name t.lexeme] ++ d.collapse) :: outer
        root } w at h
    rw [← OpenNode.addAll_addAll] at h
    obtain ⟨n, h⟩ := ih (fun s hs => hnames s (List.mem_cons_of_mem _ hs))
      (fun name hmem => hss name (List.mem_cons_of_mem _ hmem)) hallows.tail hw h
    refine ⟨n + 1, ?_⟩
    rw [tasks_terminal, List.cons_append, Accepts.terminal_iff hid]
    exact ⟨t, _, n, rfl, rfl, ht, h⟩
  | @rule name r ss i a ha d e ihd ihe =>
    have hnames' : ∀ s ∈ ss, g.Names s := fun s hs => hnames s (List.mem_cons_of_mem _ hs)
    have hfollow := hg.heads_follows hr e hnames' hallows hw
    rw [Derivation.collapse, ← OpenNode.addAll_addAll] at h
    obtain ⟨n, h⟩ := ihe hnames' (fun name hmem => hss name (List.mem_cons_of_mem _ hmem))
      hallows.tail hw h
    -- The alternative is expanded, its symbols are found, and its node is closed.
    obtain ⟨l, hexpand⟩ : ∃ l, Accepts g final l
        (expand { stack := tasks ss ++ rest, nodes := node :: outer, root } a)
        (d.tokens ++ (e.tokens ++ w)) := by
      cases hsub : a.subrule with
      | true =>
        have hcollapse : a.collapse d.collapse = d.collapse := if_pos hsub
        rw [hcollapse] at h
        rw [expand_of_subrule hsub]
        exact ihd (hr.names ha) (hfree ha) (Grammar.RuleSet.allows_alternative ha) hfollow h
      | false =>
        rw [← closeNode_ofAlternative hsub] at h
        rw [expand_of_not_subrule hsub]
        exact ihd (hr.names ha) (hfree ha) (Grammar.RuleSet.allows_alternative ha) hfollow
          (Accepts.close_iff.2 ⟨n, rfl, h⟩)
    refine ⟨l + 1, ?_⟩
    rw [tasks_rule, List.cons_append, Derivation.tokens, List.append_assoc]
    exact accepts_rule hg hr ha d hfollow hexpand

/-- The whole run: from the start, the machine accepts exactly the tokens that the start derives with
the end of the input after them, and then holds the tree of the derivation. -/
theorem accepts_start_iff (hg : g.Compiled) (hr : g.Resolved) (hfree : EndFree g.toRuleSet)
    (hkept : ∀ {k a}, (k, a) ∈ g.alternativesOf 0 → a.subrule = false) {eof : String}
    (heof : g.eof = .terminal eof 0) (hnumber : g.terminalNumber? eof = some 0) :
    (∃ n, Accepts g final n (.start g) w) ↔
      ∃ (d : Derivation g.toRuleSet [g.start]) (t : Token), w = d.tokens ++ [t] ∧ t.name = eof ∧
        final = { stack := [], root := some d.tree } := by
  unfold Machine.start
  rw [heof]
  constructor
  · rintro ⟨n, h⟩
    obtain ⟨t, ts, n, a, -, rfl, hchoice, h⟩ := Accepts.rule_iff.1 h
    obtain ⟨i, ha⟩ := hg.exists_mem_of_choice hr hchoice
    rw [expand_of_not_subrule (hkept ha)] at h
    obtain ⟨d, v, l, -, rfl, hfound⟩ := exists_derivation_of_accepts hg hr hfree (hfree ha) h
    obtain ⟨l, rfl, hclosed⟩ := Accepts.close_iff.1 hfound
    rw [closeNode_single, OpenNode.close_ofAlternative] at hclosed
    obtain ⟨last, rfl, -, hlast, rfl⟩ := Accepts.end_iff.1 hclosed
    exact ⟨.rule i a ha d .nil, last, by simp [Derivation.tokens], hlast, rfl⟩
  · rintro ⟨d, last, rfl, hlast, rfl⟩
    obtain ⟨i, a, ha, d, rfl⟩ := d.exists_eq_rule
    have hend : g.Heads (g.Follows g.firsts 0) [last] := by
      rintro _ ⟨⟩
      exact ⟨0, hlast ▸ hnumber, Grammar.RuleSet.zero_mem_followOf⟩
    have hlast : Accepts g { stack := [], root := some (.rule a.name a.multiChild d.collapse) } 0
        (closeNode
          { stack := [.expect (.terminal eof 0)]
            nodes := [(OpenNode.ofAlternative a).addAll d.collapse] }) [last] := by
      rw [closeNode_single, OpenNode.close_ofAlternative]
      exact Accepts.end_iff.2 ⟨last, rfl, rfl, hlast, rfl⟩
    obtain ⟨n, h⟩ := accepts_of_derivation hg hr hfree d (hr.names ha) (hfree ha)
      (Grammar.RuleSet.allows_alternative ha) hend (Accepts.close_iff.2 ⟨0, rfl, hlast⟩)
    rw [← expand_of_not_subrule (hkept ha)] at h
    refine ⟨n + 1, ?_⟩
    simp only [Derivation.tokens, List.append_nil]
    exact accepts_rule hg hr ha d hend h

end

end Machine

end Predictive.Parse
