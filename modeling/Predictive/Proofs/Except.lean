/-!
# Computations that succeed or fail

When a sequence of computations that may fail gives a result: each of them does. When it fails: one of
them does, and those before it succeed. These rules take a computation apart step by step.
-/

namespace Predictive

variable {ε ε' α β : Type}

theorem bind_eq_ok_iff {x : Except ε α} {f : α → Except ε β} {b : β} :
    x >>= f = .ok b ↔ ∃ a, x = .ok a ∧ f a = .ok b := by
  cases x with
  | error e =>
    constructor
    · exact fun h => nomatch h
    · rintro ⟨a, ha, -⟩
      exact nomatch ha
  | ok a =>
    constructor
    · exact fun h => ⟨a, rfl, h⟩
    · rintro ⟨a', ha, h⟩
      cases ha
      exact h

theorem bind_eq_error_iff {x : Except ε α} {f : α → Except ε β} {e : ε} :
    x >>= f = .error e ↔ x = .error e ∨ ∃ a, x = .ok a ∧ f a = .error e := by
  cases x with
  | error e' =>
    constructor
    · intro h
      cases h
      exact .inl rfl
    · rintro (h | ⟨a, ha, -⟩)
      · cases h
        rfl
      · exact nomatch ha
  | ok a =>
    constructor
    · exact fun h => .inr ⟨a, rfl, h⟩
    · rintro (h | ⟨a', ha, h⟩)
      · exact nomatch h
      · cases ha
        exact h

/-- Where a fold fails, one step does, in a state that has whatever the steps before it keep. -/
theorem exists_of_foldlM_eq_error {f : β → α → Except ε β} {P : β → Prop} {l : List α} {b : β}
    {e : ε} (hkeep : ∀ b, ∀ a ∈ l, ∀ b', P b → f b a = .ok b' → P b') (hb : P b)
    (h : l.foldlM f b = .error e) : ∃ a ∈ l, ∃ b', P b' ∧ f b' a = .error e := by
  induction l generalizing b with
  | nil => cases h
  | cons a l ih =>
    rw [List.foldlM_cons, bind_eq_error_iff] at h
    rcases h with h | ⟨b', hb', h⟩
    · exact ⟨a, List.mem_cons_self, b, hb, h⟩
    · obtain ⟨c, hc, hrest⟩ := ih (fun b c hc => hkeep b c (List.mem_cons_of_mem a hc))
        (hkeep b a List.mem_cons_self b' hb hb') h
      exact ⟨c, List.mem_cons_of_mem a hc, hrest⟩

/-- Each result of a sequence of computations is that of one of them. -/
theorem exists_of_mapM_eq_ok {f : α → Except ε β} {l : List α} {bs : List β} (h : l.mapM f = .ok bs) :
    ∀ b ∈ bs, ∃ a ∈ l, f a = .ok b := by
  induction l generalizing bs with
  | nil =>
    obtain rfl : [] = bs := Except.ok.inj h
    exact fun b hb => absurd hb List.not_mem_nil
  | cons a l ih =>
    rw [List.mapM_cons, bind_eq_ok_iff] at h
    obtain ⟨b, hb, h⟩ := h
    obtain ⟨bs, hbs, h⟩ := bind_eq_ok_iff.1 h
    obtain rfl : b :: bs = _ := Except.ok.inj h
    refine List.forall_mem_cons.2 ⟨⟨a, List.mem_cons_self, hb⟩, fun c hc => ?_⟩
    obtain ⟨a', ha', hc⟩ := ih hbs c hc
    exact ⟨a', List.mem_cons_of_mem a ha', hc⟩

/-- Going on in the same way keeps what is seen of a result. -/
theorem mapError_bind_congr {x y : Except ε α} {f : α → Except ε β} {g : ε → ε'}
    (h : x.mapError g = y.mapError g) : (x >>= f).mapError g = (y >>= f).mapError g := by
  cases x with
  | error e =>
    cases y with
    | error e' => exact congrArg Except.error (Except.error.inj h)
    | ok b => cases h
  | ok a =>
    cases y with
    | error e' => cases h
    | ok b => rw [Except.ok.inj h]

theorem exists_eq_ok_of_isOk {x : Except ε α} (h : x.isOk = true) : ∃ a, x = .ok a := by
  cases x with
  | error e => cases h
  | ok a => exact ⟨a, rfl⟩

theorem map_eq_ok_iff {x : Except ε α} {f : α → β} {b : β} :
    x.map f = .ok b ↔ ∃ a, x = .ok a ∧ f a = b := by
  cases x <;> simp [Except.map]

theorem mapError_eq_ok_iff {x : Except ε α} {f : ε → ε'} {a : α} :
    x.mapError f = .ok a ↔ x = .ok a := by
  cases x with
  | error e =>
    show Except.error (f e) = .ok a ↔ Except.error e = .ok a
    simp
  | ok b =>
    show Except.ok b = .ok a ↔ Except.ok b = .ok a
    simp

theorem map_eq_error_iff {x : Except ε α} {f : α → β} {e : ε} :
    x.map f = .error e ↔ x = .error e := by
  cases x <;> simp [Except.map]

theorem mapError_eq_error_iff {x : Except ε α} {f : ε → ε'} {e : ε'} :
    x.mapError f = .error e ↔ ∃ e', x = .error e' ∧ f e' = e := by
  cases x with
  | error e' =>
    show Except.error (f e') = .error e ↔ ∃ d, Except.error e' = .error d ∧ f d = e
    simp
  | ok a =>
    show Except.ok a = .error e ↔ ∃ d, Except.ok a = .error d ∧ f d = e
    simp

theorem pure_eq_ok_iff {a b : α} : (pure a : Except ε α) = .ok b ↔ a = b :=
  ⟨fun h => Except.ok.inj h, fun h => congrArg _ h⟩

/-! ## What a computation guarantees -/

/-- The result satisfies `Q`, or the error satisfies `P`. -/
structure Guarantees (P : ε → Prop) (Q : α → Prop) (x : Except ε α) : Prop where
  of_error : ∀ {e}, x = .error e → P e
  of_ok : ∀ {a}, x = .ok a → Q a

namespace Guarantees

variable {P : ε → Prop} {Q : α → Prop} {R : β → Prop} {x : Except ε α}

theorem error {e : ε} (h : P e) : Guarantees P Q (.error e) where
  of_error he := Except.error.inj he ▸ h
  of_ok := nofun

theorem ok {a : α} (h : Q a) : Guarantees P Q (.ok a) where
  of_error := nofun
  of_ok ha := Except.ok.inj ha ▸ h

theorem bind {f : α → Except ε β} (hx : Guarantees P Q x) (hf : ∀ a, Q a → Guarantees P R (f a)) :
    Guarantees P R (x >>= f) where
  of_error h := by
    rcases bind_eq_error_iff.1 h with h | ⟨a, ha, h⟩
    · exact hx.of_error h
    · exact (hf a (hx.of_ok ha)).of_error h
  of_ok h := by
    obtain ⟨a, ha, h⟩ := bind_eq_ok_iff.1 h
    exact (hf a (hx.of_ok ha)).of_ok h

theorem mono {Q' : α → Prop} (h : Guarantees P Q x) (hQ : ∀ a, Q a → Q' a) : Guarantees P Q' x where
  of_error := h.of_error
  of_ok ha := hQ _ (h.of_ok ha)

theorem map {f : α → β} (hx : Guarantees P Q x) (hf : ∀ a, Q a → R (f a)) :
    Guarantees P R (x.map f) := by
  cases x with
  | error e => exact .error (hx.of_error rfl)
  | ok a => exact .ok (hf a (hx.of_ok rfl))

theorem mapError {P' : ε' → Prop} {f : ε → ε'} (x : Except ε α) (hf : ∀ e, P' (f e)) :
    Guarantees P' (fun _ => True) (x.mapError f) := by
  cases x with
  | error e => exact .error (hf e)
  | ok a => exact .ok trivial

end Guarantees

end Predictive
