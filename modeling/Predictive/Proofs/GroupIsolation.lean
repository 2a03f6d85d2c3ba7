import Mathlib.Data.List.Induction
import Predictive.Proofs.FlatStack

/-!
# Groups keep to themselves

Whatever items are put on a `FlatStack`, an open group keeps the operands that were there when it was
opened, and what is put on the stack in it does not depend on them. What closes a group is matched by an
item that opened it (`Evaluator.exists_opening`), and gives the depth at which this was
(`Evaluator.groups_isolated`). The depths of the open groups never decrease from outer to inner, and are
at most the number of operands (`FlatStack.Ordered`).
-/

namespace Predictive.Precedence

variable {σ α ω ε : Type}

/-! ## Depths -/

theorem Entry.floor_eq (operators : List (Entry ω)) :
    floor operators = (operators.filterMap depth?).head?.getD 0 := by
  rw [floor, List.head?_filterMap]

namespace FlatStack

/-- The depths of the open groups never decrease from outer to inner, and there are at least as many
operands. -/
structure Ordered (s : FlatStack α ω) : Prop where
  pairwise : s.depths.Pairwise (· ≥ ·)
  le_length : ∀ depth ∈ s.depths, depth ≤ s.operands.length

namespace Ordered

variable {s t : FlatStack α ω} {depth : Nat}

theorem floor_le (h : s.Ordered) : Entry.floor s.operators ≤ s.operands.length := by
  have hle := h.le_length
  rw [Entry.floor_eq, ← depths]
  cases hs : s.depths with
  | nil => exact Nat.zero_le _
  | cons depth rest =>
    rw [hs] at hle
    exact hle depth List.mem_cons_self

/-- Since the innermost group is the deepest, it is enough that its depth is not passed. -/
theorem of_floor_le (h : s.Ordered) (hdepths : t.depths = s.depths)
    (hfloor : Entry.floor s.operators ≤ t.operands.length) : t.Ordered := by
  have hpairwise := h.pairwise
  rw [Entry.floor_eq, ← depths] at hfloor
  refine ⟨hdepths ▸ hpairwise, ?_⟩
  rw [hdepths]
  cases hs : s.depths with
  | nil => exact fun depth hdepth => absurd hdepth List.not_mem_nil
  | cons first rest =>
    rw [hs] at hfloor hpairwise
    intro depth hdepth
    rcases List.mem_cons.1 hdepth with rfl | hdepth
    · exact hfloor
    · exact Nat.le_trans (List.rel_of_pairwise_cons hpairwise hdepth) hfloor

theorem opened (h : s.Ordered) (hdepths : t.depths = s.operands.length :: s.depths)
    (hoperands : t.operands = s.operands) : t.Ordered where
  pairwise := by
    rw [hdepths]
    exact List.pairwise_cons.2 ⟨h.le_length, h.pairwise⟩
  le_length depth hdepth := by
    rw [hoperands]
    rw [hdepths] at hdepth
    rcases List.mem_cons.1 hdepth with rfl | hdepth
    · exact Nat.le_refl _
    · exact h.le_length depth hdepth

theorem closed (h : s.Ordered) (hdepths : s.depths = depth :: t.depths)
    (hoperands : t.operands = s.operands) : t.Ordered where
  pairwise := (List.pairwise_cons.1 (hdepths ▸ h.pairwise)).2
  le_length depth hdepth := by
    rw [hoperands]
    refine h.le_length depth ?_
    rw [hdepths]
    exact List.mem_cons_of_mem _ hdepth

end Ordered

theorem depths_within (s outer : FlatStack α ω) :
    (s.within outer).depths =
      s.depths.map (· + outer.operands.length) ++ outer.operands.length :: outer.depths := by
  have hraise : Entry.depth? ∘ Entry.raise outer.operands.length =
      fun entry : Entry ω => entry.depth?.map (· + outer.operands.length) := by
    funext entry
    cases entry <;> rfl
  simp [depths, within, List.filterMap_append, List.filterMap_map, List.map_filterMap, hraise,
    Entry.depth?]

theorem getElem?_depths_within (s outer : FlatStack α ω) :
    (s.within outer).depths[s.depths.length]? = some outer.operands.length := by
  rw [depths_within, List.getElem?_append_right (by simp)]
  simp

end FlatStack

namespace Evaluator

variable {E : Evaluator σ α ω ε} {s : FlatStack α ω} {c : σ} {items before inside : List (Item α ω)}
  {n depth : Nat}

theorem ordered_unwind {binds : ω → Bool} (h : s.Ordered) :
    (E.unwind binds s.operators s.operands c).2.1.Ordered :=
  h.of_floor_le depths_unwind (floor_le_length_unwind h.floor_le)

theorem ordered_call (h : s.Ordered) (item : Item α ω) : (E.call item (s, c)).2.1.Ordered := by
  cases item with
  | operand a => exact h.of_floor_le rfl (Nat.le_succ_of_le h.floor_le)
  | openGroup => exact h.opened rfl rfl
  | operator op =>
    have hunwind : (E.unwind (fun top => E.precedence op ≤ E.precedence top) s.operators s.operands
      c).2.1.Ordered := ordered_unwind h
    rw [call]
    generalize E.unwind _ s.operators s.operands c = r at hunwind
    rcases r with ⟨_ | _, s', c'⟩
    · exact hunwind
    · exact hunwind.of_floor_le rfl hunwind.floor_le
  | closeGroup =>
    have hunwind : (E.unwind (fun _ => true) s.operators s.operands c).2.1.Ordered := ordered_unwind h
    rw [call]
    generalize E.unwind _ s.operators s.operands c = r at hunwind
    rcases r with ⟨_ | _, ⟨operands, operators⟩, c'⟩
    · exact hunwind
    · rcases operators with _ | ⟨op | depth, operators⟩
      · exact hunwind
      · exact hunwind
      · exact hunwind.closed rfl rfl

theorem run_append (xs ys : List (Item α ω)) (m : FlatStack α ω × σ) :
    E.run (xs ++ ys) m = E.run ys (E.run xs m) :=
  List.foldl_append

theorem run_concat (items : List (Item α ω)) (item : Item α ω) (m : FlatStack α ω × σ) :
    E.run (items ++ [item]) m = (E.call item (E.run items m)).2 :=
  E.run_append items [item] m

theorem ordered_run (E : Evaluator σ α ω ε) (items : List (Item α ω)) (c : σ) :
    (E.run items ({}, c)).1.Ordered := by
  induction items using List.reverseRecOn with
  | nil => exact ⟨List.Pairwise.nil, fun _ hdepth => absurd hdepth List.not_mem_nil⟩
  | append_singleton items item ih =>
    rw [run_concat]
    exact ordered_call ih item

/-! ## What opened a group -/

theorem unclosed_concat (items : List (Item α ω)) (item : Item α ω) (m : FlatStack α ω × σ) :
    E.unclosed n (items ++ [item]) m =
      (E.unclosed n items m).bind fun n => leftOpen n item (E.call item (E.run items m)).1 := by
  induction items generalizing n m with
  | nil => simp [unclosed, run]
  | cons first items ih =>
    rw [List.cons_append, unclosed, unclosed, Option.bind_assoc]
    exact congrArg _ (funext fun n => ih _)

/-- After the items `before`, a group was opened that is still open after the items `inside`, together
with `n` groups that were opened in it. -/
def OpenSince (E : Evaluator σ α ω ε) (c : σ) (before inside : List (Item α ω)) (n : Nat) : Prop :=
  E.unclosed 0 inside (E.run (before ++ [.openGroup]) ({}, c)) = some n

/-- Every open group was opened by an item, and its depth is the number of operands that were there. -/
theorem exists_opening (h : (E.run items ({}, c)).1.depths[n]? = some depth) :
    ∃ before inside, items = before ++ .openGroup :: inside ∧ E.OpenSince c before inside n ∧
      depth = (E.run before ({}, c)).1.operands.length := by
  induction items using List.reverseRecOn generalizing n with
  | nil => cases h
  | append_singleton items item ih =>
    rw [run_concat] at h
    -- an item that leaves the group open is one more item inside
    have hstep {k : Nat} (hdepth : (E.run items ({}, c)).1.depths[k]? = some depth)
        (hleft : leftOpen k item (E.call item (E.run items ({}, c))).1 = some n) :
        ∃ before inside, items ++ [item] = before ++ .openGroup :: inside ∧
          E.OpenSince c before inside n ∧ depth = (E.run before ({}, c)).1.operands.length := by
      obtain ⟨before, inside, rfl, hopen, hlength⟩ := ih hdepth
      refine ⟨before, inside ++ [item], by simp, ?_, hlength⟩
      rw [OpenSince, unclosed_concat, hopen, ← run_append, List.append_assoc]
      exact hleft
    rcases E.depths_call item (E.run items ({}, c)).1 (E.run items ({}, c)).2 with
      ⟨rfl, hdepths⟩ | ⟨_, rfl, hresult, hdepths⟩ | ⟨hdepths, hleft⟩
    · rw [hdepths] at h
      cases n with
      | zero => exact ⟨items, [], rfl, rfl, (Option.some.inj h).symm⟩
      | succ k => exact hstep h rfl
    · refine hstep ?_ (k := n + 1) ?_
      · rw [hdepths]
        exact h
      · rw [hresult]
        rfl
    · rw [hdepths] at h
      exact hstep h (hleft n)

/-! ## Isolation -/

/-- The items in an open group do what they do on a stack of their own. -/
theorem run_of_openSince (h : E.OpenSince c before inside n) :
    let outer := E.run before ({}, c)
    let inner := E.run inside ({}, outer.2)
    E.run (before ++ .openGroup :: inside) ({}, c) = (inner.1.within outer.1, inner.2) ∧
      inner.1.depths.length = n := by
  have hstart : E.run (before ++ [.openGroup]) ({}, c) =
      (FlatStack.within {} (E.run before ({}, c)).1, (E.run before ({}, c)).2) := run_concat _ _ _
  rw [OpenSince, hstart] at h
  have hrun := run_within (s := {}) h
  rw [← hstart] at hrun
  rw [← run_append, List.append_assoc] at hrun
  exact hrun

/-- What closes a group gives the depth at which this was opened, and leaves the operands that were
there. -/
theorem close_within {outer : FlatStack α ω} {result : Option Nat} (hdepths : s.depths = [])
    (h : (E.call .closeGroup (s.within outer, c)).1 = .ok result) :
    result = some outer.operands.length ∧
      ∃ above, (E.call .closeGroup (s.within outer, c)).2.1 =
        { operands := above ++ outer.operands, operators := outer.operators } := by
  rcases E.call_within .closeGroup s outer c with hcall | ⟨-, -, above, c', hcall⟩
  · -- there is no group to be closed in `s`
    have hleft := E.leftOpen_call .closeGroup s c
    rw [hcall, inGroup] at h
    cases hresult : (E.call .closeGroup (s, c)).1 with
    | error e =>
      rw [hresult] at h
      cases h
    | ok depth =>
      rw [hresult, hdepths] at hleft
      cases hleft
  · rw [hcall] at h ⊢
    exact ⟨(Except.ok.inj h).symm, above, rfl⟩

/-- A group that is closed without an error was opened by an item, and no group in it is open. -/
theorem exists_opening_of_close {result : Option Nat}
    (h : (E.call .closeGroup (E.run items ({}, c))).1 = .ok result) :
    ∃ before inside, items = before ++ .openGroup :: inside ∧ E.OpenSince c before inside 0 := by
  rcases E.depths_call .closeGroup (E.run items ({}, c)).1 (E.run items ({}, c)).2 with
    ⟨hitem, -⟩ | ⟨depth, -, -, hdepths⟩ | ⟨-, hleft⟩
  · cases hitem
  · obtain ⟨before, inside, hitems, hopen, -⟩ := exists_opening (n := 0) (by rw [hdepths]; rfl)
    exact ⟨before, inside, hitems, hopen⟩
  · cases h ▸ hleft 0

/-- Whatever items are put on the stack, groups keep to themselves. The depths of the open groups never
decrease from outer to inner, and are at most the number of operands. While a group is open, the items in
it do what they do on a stack of their own, and the operands that were there when it was opened are the
oldest ones. Closing a group gives the number of operands that were there when it was opened, and leaves
them. If operators are applied as in an algebra, a stack with a frame for each group goes through the same
states. -/
theorem groups_isolated (E : Evaluator σ α ω ε) (items : List (Item α ω)) (c : σ) :
    let m := E.run items ({}, c)
    m.1.depths.Pairwise (· ≥ ·) ∧ (∀ depth ∈ m.1.depths, depth ≤ m.1.operands.length) ∧
    (∀ before inside n, items = before ++ .openGroup :: inside → E.OpenSince c before inside n →
      let outer := E.run before ({}, c)
      let inner := E.run inside ({}, outer.2)
      m = (inner.1.within outer.1, inner.2) ∧ m.1.operands = inner.1.operands ++ outer.1.operands ∧
        m.1.depths[n]? = some outer.1.operands.length) ∧
    (∀ result, (E.call .closeGroup m).1 = .ok result →
      ∃ before inside above, items = before ++ .openGroup :: inside ∧ E.OpenSince c before inside 0 ∧
        let outer := E.run before ({}, c)
        result = some outer.1.operands.length ∧ (E.call .closeGroup m).2.1 =
          { operands := above ++ outer.1.operands, operators := outer.1.operators }) ∧
    ∀ A : Algebra α ω ε, E.Computes A →
      E.eval items ({}, c) = (items.foldlM (Stack.feed A) {} >>= fun s => s.complete A, c) ∧
      ∀ s, items.foldlM (Stack.feed A) {} = .ok s → m = (s.flat, c) := by
  intro m
  have hordered := E.ordered_run items c
  refine ⟨hordered.pairwise, hordered.le_length, ?_, ?_, ?_⟩
  · rintro before inside n rfl hopen outer inner
    obtain ⟨hrun, hlength⟩ := run_of_openSince hopen
    refine ⟨hrun, congrArg (·.1.operands) hrun, ?_⟩
    rw [← hlength, show m = _ from hrun]
    exact FlatStack.getElem?_depths_within _ _
  · intro result hresult
    obtain ⟨before, inside, rfl, hopen⟩ := exists_opening_of_close hresult
    obtain ⟨hrun, hlength⟩ := run_of_openSince hopen
    have hclose : (E.call .closeGroup m).1 = .ok result := hresult
    rw [show m = _ from hrun] at hclose ⊢
    obtain ⟨hdepth, above, hleft⟩ := close_within (List.eq_nil_of_length_eq_zero hlength) hclose
    exact ⟨before, inside, above, rfl, hopen, hdepth, hleft⟩
  · exact fun A hA => ⟨hA.eval_eq items {} c, fun s hs => hA.run_flat hs c⟩

end Evaluator

end Predictive.Precedence
