import Predictive.Proofs.Precedence

/-!
# Operands side by side

Where two operands stand side by side, an operator joins them (`Interpretation.joined`). An
expression in which operands may do so is built up like one in which they may not
(`Interpretation.Expression`). `Interpretation.Spelled` spells items one after the other, and what
joins operands not at all; what is spelled has the value that evaluation gives
(`Interpretation.Writes.of_complete`).
-/

namespace Predictive.Precedence

namespace Interpretation

variable {α ω ε : Type} {A : Algebra α ω ε} {I : Interpretation A}

/-! ## Juxtaposition -/

/-- The items with `op` between operands that stand side by side. -/
def joined (I : Interpretation A) (op : ω) : Bool → List (Item α ω) → List (Item α ω)
  | _, [] => []
  | ended, item :: items =>
    (if ended && begins item then [.operator op] else []) ++
      item :: joined I op (I.completes item) items

/-- Puts an item on the stack, joined by `op` to the operand before it if it begins one of its own.
-/
def feedJoined (I : Interpretation A) (op : ω) (ended : Bool) (s : Stack α ω) (item : Item α ω) :
    Except ε (Stack α ω) := do
  let s ← if ended && begins item then s.addOperator A op else pure s
  I.feed s item

theorem run_joined_cons {op : ω} {ended : Bool} {s : Stack α ω} {item : Item α ω}
    {items : List (Item α ω)} :
    I.run s (I.joined op ended (item :: items)) = I.feedJoined op ended s item >>= fun s =>
      I.run s (I.joined op (I.completes item) items) := by
  rw [joined, feedJoined]
  split
  · show I.run s (.operator op :: item :: _) = _
    rw [run, List.foldlM_cons]
    show s.addOperator A op >>= (fun s => I.feed s item >>= _) = _
    cases s.addOperator A op <;> rfl
  · rfl

theorem separated_joined {op : ω} {f : α → α → α} (hop : I.meaning op = .between f) (ended : Bool)
    (items : List (Item α ω)) : I.Separated ended (I.joined op ended items) := by
  induction items generalizing ended with
  | nil => trivial
  | cons item items ih =>
    rw [joined]
    split
    · refine ⟨fun h => Bool.noConfusion h, fun _ => completes_between hop, ih _⟩
    · next hjoin =>
      refine ⟨fun hbegins => ?_, ih _⟩
      rw [hbegins, Bool.and_true] at hjoin
      exact Bool.eq_false_iff.2 hjoin

theorem joined_append {op : ω} {ended : Bool} {left right : List (Item α ω)} {item : Item α ω} :
    I.joined op ended (left ++ [item] ++ right) =
      I.joined op ended (left ++ [item]) ++ I.joined op (I.completes item) right := by
  induction left generalizing ended with
  | nil => simp [joined]
  | cons first left ih =>
    rw [List.cons_append, List.cons_append, joined, joined, ih, List.append_assoc, List.cons_append]

/-- The items begin and complete an operand, and with `op` between operands side by side they are an
expression of the given value. -/
structure Expression (I : Interpretation A) (op : ω) (n : Nat) (items : List (Item α ω)) (a : α) :
    Prop where
  begins : ∃ first rest, items = first :: rest ∧ begins first = true
  completes : ∃ rest last, items = rest ++ [last] ∧ I.completes last = true
  reads : I.Reads n (I.joined op false items) a

namespace Expression

variable {op join : ω} {n : Nat} {items left right : List (Item α ω)} {a b c : α}

theorem operand (a : α) : I.Expression join (I.top + 1) [.operand a] a :=
  ⟨⟨_, _, rfl, rfl⟩, ⟨[], _, rfl, rfl⟩, .operand a⟩

theorem hollow (hclose : I.close [] = .ok [c]) :
    I.Expression join (I.top + 1) [.openGroup, .closeGroup] c :=
  ⟨⟨_, _, rfl, rfl⟩, ⟨[.openGroup], _, rfl, rfl⟩, .hollow hclose⟩

theorem looser {m : Nat} (hmn : m ≤ n) (h : I.Expression join n items a) :
    I.Expression join m items a :=
  ⟨h.begins, h.completes, .looser hmn h.reads⟩

/-- Nothing is put between an operand and what does not begin another. -/
theorem joined_concat (h : I.Expression join n items a) {item : Item α ω}
    (hitem : Interpretation.begins item = false) :
    I.joined join false (items ++ [item]) = I.joined join false items ++ [item] := by
  obtain ⟨rest, last, rfl, -⟩ := h.completes
  rw [joined_append]
  simp [joined, hitem]

theorem after {f : α → α} (hop : I.meaning op = .after f) (h : I.Expression join I.top items a) :
    I.Expression join I.top (items ++ [.operator op]) (f a) := by
  refine ⟨?_, ⟨_, _, rfl, completes_after hop⟩, ?_⟩
  · obtain ⟨first, rest, rfl, hfirst⟩ := h.begins
    exact ⟨first, _, rfl, hfirst⟩
  · rw [h.joined_concat rfl]
    exact .after hop h.reads

theorem between {f : α → α → α} (hop : I.meaning op = .between f)
    (hleft : I.Expression join (A.precedence op) left a)
    (hright : I.Expression join (A.precedence op + 1) right b) :
    I.Expression join (A.precedence op) (left ++ .operator op :: right) (f a b) := by
  refine ⟨?_, ?_, ?_⟩
  · obtain ⟨first, rest, rfl, hfirst⟩ := hleft.begins
    exact ⟨first, _, rfl, hfirst⟩
  · obtain ⟨rest, last, rfl, hlast⟩ := hright.completes
    exact ⟨left ++ .operator op :: rest, last, by simp, hlast⟩
  · have hjoined : I.joined join false (left ++ .operator op :: right) =
        I.joined join false left ++ .operator op :: I.joined join false right := by
      rw [← List.singleton_append, ← List.append_assoc, joined_append, hleft.joined_concat rfl,
        completes_between hop, List.append_assoc]
      rfl
    rw [hjoined]
    exact .between hop hleft.reads hright.reads

theorem juxtaposed {f : α → α → α} (hop : I.meaning op = .between f)
    (hleft : I.Expression op (A.precedence op) left a)
    (hright : I.Expression op (A.precedence op + 1) right b) :
    I.Expression op (A.precedence op) (left ++ right) (f a b) := by
  refine ⟨?_, ?_, ?_⟩
  · obtain ⟨first, rest, rfl, hfirst⟩ := hleft.begins
    exact ⟨first, _, rfl, hfirst⟩
  · obtain ⟨rest, last, rfl, hlast⟩ := hright.completes
    exact ⟨left ++ rest, last, (List.append_assoc ..).symm, hlast⟩
  · have hjoined : I.joined op false (left ++ right) =
        I.joined op false left ++ .operator op :: I.joined op false right := by
      obtain ⟨rest, last, rfl, hlast⟩ := hleft.completes
      obtain ⟨first, rest', rfl, hfirst⟩ := hright.begins
      rw [joined_append, hlast]
      simp [joined, hfirst]
    rw [hjoined]
    exact .between hop hleft.reads hright.reads

theorem group (hclose : I.close [a] = .ok [c]) (h : I.Expression join n items a) :
    I.Expression join (I.top + 1) (.openGroup :: items ++ [.closeGroup]) c := by
  refine ⟨⟨_, _, rfl, rfl⟩, ⟨_, _, rfl, rfl⟩, ?_⟩
  show I.Reads _ (.openGroup :: I.joined join false (items ++ [.closeGroup])) c
  rw [h.joined_concat rfl]
  exact .group hclose (.looser (Nat.zero_le n) h.reads)

end Expression

/-! ## Spelling -/

variable {τ : Type} {P : List τ → Item α ω → Prop}

/-- Each item is spelled as `P` says, one after the other. -/
inductive Spelled (P : List τ → Item α ω → Prop) : List (Item α ω) → List τ → Prop
  | nil : Spelled P [] []
  | cons {us vs : List τ} {item : Item α ω} {items : List (Item α ω)} : P us item →
      Spelled P items vs → Spelled P (item :: items) (us ++ vs)

theorem Spelled.append {left right : List (Item α ω)} {us vs : List τ} (hleft : Spelled P left us)
    (hright : Spelled P right vs) : Spelled P (left ++ right) (us ++ vs) := by
  induction hleft with
  | nil => exact hright
  | cons hitem _ ih =>
    rw [List.append_assoc]
    exact .cons hitem ih

theorem Spelled.singleton {item : Item α ω} {us : List τ} (h : P us item) :
    Spelled P [item] us := by
  simpa using Spelled.cons h .nil

theorem Spelled.silent {item : Item α ω} {items : List (Item α ω)} {cs : List τ} (h : P [] item)
    (hitems : Spelled P items cs) : Spelled P (item :: items) cs :=
  Spelled.cons h hitems

theorem Spelled.of_append {left right : List (Item α ω)} {cs : List τ}
    (h : Spelled P (left ++ right) cs) :
    ∃ us vs, cs = us ++ vs ∧ Spelled P left us ∧ Spelled P right vs := by
  induction left generalizing cs with
  | nil => exact ⟨[], cs, rfl, .nil, h⟩
  | cons item left ih =>
    cases h with
    | @cons ws _ _ _ hitem h =>
      obtain ⟨us, vs, rfl, hleft, hright⟩ := ih h
      exact ⟨ws ++ us, vs, (List.append_assoc ..).symm, .cons hitem hleft, hright⟩

theorem Spelled.eq_of_singleton {item : Item α ω} {cs : List τ} (h : Spelled P [item] cs) :
    P cs item := by
  cases h with
  | cons hitem hnil =>
    cases hnil
    rwa [List.append_nil]

/-- The item is spelled as `P` says, or not at all where `op` joins operands. -/
def Joins (P : List τ → Item α ω → Prop) (op : ω) (us : List τ) (item : Item α ω) : Prop :=
  P us item ∨ us = [] ∧ item = .operator op

/-- An operator between operands side by side is not spelled at all. -/
theorem Spelled.joined {op : ω} {items : List (Item α ω)} {cs : List τ} (h : Spelled P items cs)
    (I : Interpretation A) (ended : Bool) : Spelled (Joins P op) (I.joined op ended items) cs := by
  induction h generalizing ended with
  | nil => exact .nil
  | @cons us vs item items hitem _ ih =>
    have hrest : Spelled (Joins P op) _ _ := .cons (.inl hitem) (ih (I.completes item))
    rw [Interpretation.joined]
    split
    · exact .silent (.inr ⟨rfl, rfl⟩) hrest
    · exact hrest

/-! ## Values of texts -/

/-- `W n` relates texts to values in every way in which an expression of operators that bind at
least as tightly as `n` is built, where items are spelled as `P` says and `join` is not spelled. -/
structure Writes (I : Interpretation A) (join : ω) (P : List τ → Item α ω → Prop)
    (W : Nat → List τ → α → Prop) : Prop where
  operand : ∀ {us a}, P us (.operand a) → W (I.top + 1) us a
  hollow : ∀ {us vs c}, P us .openGroup → P vs .closeGroup → I.close [] = .ok [c] →
    W (I.top + 1) (us ++ vs) c
  group : ∀ {us ws vs a c}, P us .openGroup → W 0 ws a → P vs .closeGroup → I.close [a] = .ok [c] →
    W (I.top + 1) (us ++ (ws ++ vs)) c
  after : ∀ {us vs op f a}, W I.top us a → P vs (.operator op) → I.meaning op = .after f →
    W I.top (us ++ vs) (f a)
  between : ∀ {us ws vs op f a b}, W (A.precedence op) us a → P ws (.operator op) →
    W (A.precedence op + 1) vs b → I.meaning op = .between f →
    W (A.precedence op) (us ++ (ws ++ vs)) (f a b)
  juxtaposed : ∀ {us vs f a b}, W (A.precedence join) us a → W (A.precedence join + 1) vs b →
    I.meaning join = .between f → W (A.precedence join) (us ++ vs) (f a b)
  looser : ∀ {m n us a}, m ≤ n → W n us a → W m us a

namespace Writes

variable {join : ω} {W : Nat → List τ → α → Prop} {items : List (Item α ω)} {us : List τ} {a : α}

/-- An expression of items is written as they are spelled. -/
theorem of_reads (h : I.Writes join P W) {f : α → α → α} (hjoin : I.meaning join = .between f)
    {n : Nat} (hreads : I.Reads n items a) (hitems : Spelled (Joins P join) items us) : W n us a := by
  induction hreads generalizing us with
  | operand a =>
    rcases hitems.eq_of_singleton with hitem | ⟨-, heq⟩
    · exact h.operand hitem
    · cases heq
  | hollow hclose =>
    obtain ⟨us, vs, rfl, hus, hvs⟩ :=
      Spelled.of_append (show Spelled _ ([.openGroup] ++ _) _ from hitems)
    rcases hus.eq_of_singleton with hopen | ⟨-, heq⟩
    · rcases hvs.eq_of_singleton with hclosing | ⟨-, heq⟩
      · exact h.hollow hopen hclosing hclose
      · cases heq
    · cases heq
  | @group items a c hclose _ ih =>
    obtain ⟨us, vs, rfl, hus, hvs⟩ :=
      Spelled.of_append (show Spelled _ ([.openGroup] ++ _) _ from hitems)
    obtain ⟨ws, vs, rfl, hws, hvs⟩ := hvs.of_append
    rcases hus.eq_of_singleton with hopen | ⟨-, heq⟩
    · rcases hvs.eq_of_singleton with hclosing | ⟨-, heq⟩
      · exact h.group hopen (ih hws) hclosing hclose
      · cases heq
    · cases heq
  | after hop _ ih =>
    obtain ⟨us, vs, rfl, hus, hvs⟩ := hitems.of_append
    rcases hvs.eq_of_singleton with hitem | ⟨-, heq⟩
    · exact h.after (ih hus) hitem hop
    · cases heq
      cases hjoin.symm.trans hop
  | @between left right op g a b hop _ _ ihleft ihright =>
    obtain ⟨us, vs, rfl, hus, hvs⟩ := hitems.of_append
    cases hvs with
    | cons hitem hvs =>
      rcases hitem with hitem | ⟨rfl, heq⟩
      · exact h.between (ihleft hus) hitem (ihright hvs) hop
      · cases heq
        exact h.juxtaposed (ihleft hus) (ihright hvs) hop
  | looser hmn _ ih => exact h.looser hmn (ih hitems)

/-- What evaluation leaves of the items that a text spells is the value of the text. -/
theorem of_complete (h : I.Writes join P W) {f : α → α → α} (hjoin : I.meaning join = .between f)
    (hitems : Spelled P items us) {s : Stack α ω}
    (hrun : I.run {} (I.joined join false items) = .ok s) {operands : List α}
    (hcomplete : s.complete A = .ok operands) :
    operands = [] ∨ ∃ a, operands = [a] ∧ W 0 us a := by
  have hseparated := separated_joined hjoin false items
  rcases reads_of_complete hseparated hrun hcomplete with ⟨-, rfl⟩ | ⟨a, rfl, hreads⟩
  · exact .inl rfl
  · exact .inr ⟨a, rfl, h.of_reads hjoin hreads (hitems.joined I false)⟩

end Writes

theorem Expression.exists_complete {op : ω} {n : Nat} {items : List (Item α ω)} {a : α}
    (h : I.Expression op n items a) :
    ∃ s, I.run {} (I.joined op false items) = .ok s ∧ s.complete A = .ok [a] :=
  complete_of_reads (.looser (Nat.zero_le n) h.reads)

end Interpretation

end Predictive.Precedence
