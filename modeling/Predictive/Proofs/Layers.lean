import Predictive.Proofs.RegexGrammar

/-!
# Layered expressions

`Layered` is the syntax that regular expressions and right-hand sides of rules have in common, in
extended BNF: alternatives of sequences of repeated atoms, where an atom is an operand or a group. It
is the least family of texts that is closed under the rules that add one part at a time (`Closed`,
`closed_layered`, `Layered.of_closed`).
-/

namespace Predictive

variable {τ : Type}

/-- The signs of a syntax of expressions, and the texts of its operands. -/
structure Signs (τ : Type) where
  /-- The sign between alternatives. -/
  bar : τ → Prop
  /-- The signs after what is repeated. -/
  mark : τ → Prop
  /-- The sign before a group. -/
  opening : τ → Prop
  /-- The sign after a group. -/
  closing : τ → Prop
  /-- An operand other than a group. -/
  operand : List τ → Prop

/-- The text is an expression at a level of the syntax: `alternation = sequence (bar sequence)*`,
`sequence = repetition+`, `repetition = atom mark*` and
`atom = operand | opening alternation closing`. -/
inductive Layered (S : Signs τ) : Regex.Level → List τ → Prop
  | alternation {first : List τ} {more : List (τ × List τ)} : Layered S .sequence first →
      (∀ p ∈ more, S.bar p.1) → (∀ p ∈ more, Layered S .sequence p.2) →
      Layered S .alternation (first ++ more.flatMap fun p => p.1 :: p.2)
  | sequence {parts : List (List τ)} : parts ≠ [] → (∀ p ∈ parts, Layered S .repetition p) →
      Layered S .sequence parts.flatten
  | repetition {s marks : List τ} : Layered S .atom s → (∀ c ∈ marks, S.mark c) →
      Layered S .repetition (s ++ marks)
  | operand {s : List τ} : S.operand s → Layered S .atom s
  | group {s : List τ} {o c : τ} : S.opening o → Layered S .alternation s → S.closing c →
      Layered S .atom (o :: s ++ [c])

/-- The family of texts is closed under the rules that add one part at a time. -/
structure Closed (S : Signs τ) (W : Regex.Level → List τ → Prop) : Prop where
  alt {s t : List τ} {c : τ} : W .alternation s → S.bar c → W .sequence t →
    W .alternation (s ++ c :: t)
  sequence {s : List τ} : W .sequence s → W .alternation s
  concat {s t : List τ} : W .sequence s → W .repetition t → W .sequence (s ++ t)
  repetition {s : List τ} : W .repetition s → W .sequence s
  marked {s : List τ} {c : τ} : W .repetition s → S.mark c → W .repetition (s ++ [c])
  atom {s : List τ} : W .atom s → W .repetition s
  operand {s : List τ} : S.operand s → W .atom s
  group {s : List τ} {o c : τ} : S.opening o → W .alternation s → S.closing c →
    W .atom (o :: s ++ [c])

variable {S : Signs τ} {W : Regex.Level → List τ → Prop} {l : Regex.Level} {s : List τ}

theorem closed_layered (S : Signs τ) : Closed S (Layered S) where
  alt {s t c} h hc ht := by
    cases h with
    | @alternation first more hfirst hbars hmore =>
      have hall : Layered S .alternation
          (first ++ (more ++ [(c, t)]).flatMap fun p => p.1 :: p.2) := by
        refine .alternation hfirst ?_ ?_
        · exact List.forall_mem_append.2 ⟨hbars, List.forall_mem_singleton.2 hc⟩
        · exact List.forall_mem_append.2 ⟨hmore, List.forall_mem_singleton.2 ht⟩
      simpa using hall
  sequence {s} h := by
    have hall : Layered S .alternation
        (s ++ ([] : List (τ × List τ)).flatMap fun p => p.1 :: p.2) :=
      .alternation h (List.forall_mem_nil _) (List.forall_mem_nil _)
    simpa using hall
  concat {s t} h ht := by
    cases h with
    | @sequence parts hne hparts =>
      have hall : Layered S .sequence (parts ++ [t]).flatten := by
        refine .sequence (by simp) ?_
        exact List.forall_mem_append.2 ⟨hparts, List.forall_mem_singleton.2 ht⟩
      simpa using hall
  repetition {s} h := by
    have hall : Layered S .sequence [s].flatten :=
      .sequence (List.cons_ne_nil s []) (List.forall_mem_singleton.2 h)
    simpa using hall
  marked {s c} h hc := by
    cases h with
    | @repetition s marks hs hmarks =>
      rw [List.append_assoc]
      refine .repetition hs ?_
      exact List.forall_mem_append.2 ⟨hmarks, List.forall_mem_singleton.2 hc⟩
  atom {s} h := by
    have hall : Layered S .repetition (s ++ []) := .repetition h (List.forall_mem_nil _)
    simpa using hall
  operand h := .operand h
  group ho h hc := .group ho h hc

namespace Closed

/-- Further alternatives are added one after the other. -/
theorem alternatives (hW : Closed S W) {more : List (τ × List τ)} (h : W .alternation s)
    (hbars : ∀ p ∈ more, S.bar p.1) (hmore : ∀ p ∈ more, W .sequence p.2) :
    W .alternation (s ++ more.flatMap fun p => p.1 :: p.2) := by
  induction more generalizing s with
  | nil => simpa using h
  | cons p more ih =>
    obtain ⟨hbar, hbars⟩ := List.forall_mem_cons.1 hbars
    obtain ⟨hp, hmore⟩ := List.forall_mem_cons.1 hmore
    simpa using ih (hW.alt h hbar hp) hbars hmore

/-- Further parts are added one after the other. -/
theorem parts (hW : Closed S W) {more : List (List τ)} (h : W .sequence s)
    (hmore : ∀ p ∈ more, W .repetition p) : W .sequence (s ++ more.flatten) := by
  induction more generalizing s with
  | nil => simpa using h
  | cons p more ih =>
    obtain ⟨hp, hmore⟩ := List.forall_mem_cons.1 hmore
    simpa using ih (hW.concat h hp) hmore

/-- Further marks are added one after the other. -/
theorem marks (hW : Closed S W) {more : List τ} (h : W .repetition s)
    (hmore : ∀ c ∈ more, S.mark c) : W .repetition (s ++ more) := by
  induction more generalizing s with
  | nil => simpa using h
  | cons c more ih =>
    obtain ⟨hc, hmore⟩ := List.forall_mem_cons.1 hmore
    simpa using ih (hW.marked h hc) hmore

end Closed

/-- Layered expressions are in every family that is closed under the rules. -/
theorem Layered.of_closed (hW : Closed S W) (h : Layered S l s) : W l s := by
  induction h with
  | alternation _ hbars _ ihfirst ihmore => exact hW.alternatives (hW.sequence ihfirst) hbars ihmore
  | @sequence parts hne _ ih =>
    obtain ⟨p, more, rfl⟩ := List.exists_cons_of_ne_nil hne
    obtain ⟨hp, hmore⟩ := List.forall_mem_cons.1 ih
    exact hW.parts (hW.repetition hp) hmore
  | repetition _ hmarks ih => exact hW.marks (hW.atom ih) hmarks
  | operand h => exact hW.operand h
  | group ho _ hc ih => exact hW.group ho ih hc

end Predictive
