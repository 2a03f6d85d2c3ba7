import Predictive.Token.Tape
import Predictive.Token.Tokenizer

/-!
# Streams

A stream gives tokens one after another (`TokenStream.Gives`), and a `CountedStream` counts the
calls. A stream ends after a number of calls if from then on it gives no token but the end of the
input (`TokenStream.EndsAfter`). Tapes and tokenizers end when they announce it
(`TokenTape.endsAfter`, `Tokenizer.endsAfter`): a call leaves less to give, unless from then on
nothing changes.
-/

namespace Predictive

/-! ## Given tokens -/

namespace TokenStream

/-- The stream gives the tokens one after another, and then is the stream `last`. -/
inductive Gives {σ : Type} [TokenStream σ] (last : σ) : σ → List Token → Prop
  | nil : Gives last last []
  | cons {stream next : σ} {t : Token} {ts : List Token}
    (h : TokenStream.next stream = (.ok t, next)) (rest : Gives last next ts) : Gives last stream (t :: ts)

/-- The map keeps what the streams give and how much they announce. -/
structure Maps {σ τ : Type} [TokenStream σ] [TokenStream τ] (f : σ → τ) : Prop where
  next : ∀ stream, TokenStream.next (f stream) =
    ((TokenStream.next stream).1, f (TokenStream.next stream).2)
  remaining : ∀ stream, TokenStream.remaining (f stream) = TokenStream.remaining stream

variable {σ τ : Type} [TokenStream σ] [TokenStream τ] {stream last : σ} {eof : String} {n : Nat}

theorem Gives.map {f : σ → τ} (hf : Maps f) {tokens : List Token} (h : Gives last stream tokens) :
    Gives (f last) (f stream) tokens := by
  induction h with
  | nil => exact .nil
  | cons hnext _ ih =>
    refine .cons ?_ ih
    rw [hf.next, hnext]

/-! ## Streams that end -/

/-- The stream after a number of calls. -/
def after : Nat → σ → σ
  | 0, stream => stream
  | calls + 1, stream => after calls (next stream).2

/-- After that many calls, the stream gives no token but the end of the input. -/
def EndsAfter (eof : String) (calls : Nat) (stream : σ) : Prop :=
  ∀ n t, calls ≤ n → (next (after n stream)).1 = .ok t → t.name = eof

theorem endsAfter_succ_iff : EndsAfter eof (n + 1) stream ↔ EndsAfter eof n (next stream).2 := by
  constructor
  · exact fun h k t hk hgiven => h (k + 1) t (Nat.succ_le_succ hk) hgiven
  · intro h k t hk hgiven
    cases k with
    | zero => exact absurd hk (Nat.not_succ_le_zero n)
    | succ k => exact h k t (Nat.le_of_succ_le_succ hk) hgiven

theorem EndsAfter.mono {k : Nat} (h : EndsAfter eof n stream) (hnk : n ≤ k) :
    EndsAfter eof k stream :=
  fun j t hj => h j t (Nat.le_trans hnk hj)

/-- A stream has ended if it is in a condition in which it stays, giving only the end of the input.
-/
theorem endsAfter_zero {ended : σ → Prop} (hended : ∀ s, ended s →
      ended (next s).2 ∧ ∀ t, (next s).1 = .ok t → t.name = eof)
    (h : ended stream) : EndsAfter eof 0 stream := by
  intro n t _ hgiven
  induction n generalizing stream with
  | zero => exact (hended stream h).2 t hgiven
  | succ n ih => exact ih (hended stream h).1 (Nat.zero_le n) hgiven

/-- A stream ends after as many calls as a measure says that decreases until it has ended. -/
theorem endsAfter_of_measure (going ended : σ → Prop) (measure : σ → Nat)
    (hended : ∀ s, ended s → ended (next s).2 ∧ ∀ t, (next s).1 = .ok t → t.name = eof)
    (hgoing : ∀ s, going s → ended s ∨ going (next s).2 ∧ measure (next s).2 < measure s)
    (h : going stream) : EndsAfter eof (measure stream) stream := by
  obtain ⟨n, hn⟩ : ∃ n, measure stream = n := ⟨_, rfl⟩
  induction n using Nat.strongRecOn generalizing stream with
  | ind n ih =>
    subst hn
    rcases hgoing stream h with h | ⟨h, hlt⟩
    · exact (endsAfter_zero hended h).mono (Nat.zero_le _)
    · exact (endsAfter_succ_iff.2 (ih _ hlt h rfl)).mono hlt

end TokenStream

open TokenStream (Gives EndsAfter)

/-! ## Counting calls -/

/-- A stream with the numbers of its calls. -/
structure CountedStream (σ : Type) where
  stream : σ
  /-- How many times the next token was asked for. -/
  reads : Nat := 0
  /-- How many times the stream stepped back. -/
  pushes : Nat := 0

namespace CountedStream

variable {σ : Type} [TokenStream σ]

instance : TokenStream (CountedStream σ) where
  next counted :=
    let (token, stream) := TokenStream.next counted.stream
    (token, { counted with stream, reads := counted.reads + 1 })
  push counted := do
    let stream ← TokenStream.push counted.stream
    return { counted with stream, pushes := counted.pushes + 1 }
  remaining counted := TokenStream.remaining counted.stream

theorem maps_stream : TokenStream.Maps (stream : CountedStream σ → σ) :=
  ⟨fun _ => rfl, fun _ => rfl⟩

/-- Each token is given by one call. -/
theorem calls_of_gives {counted last : CountedStream σ} {tokens : List Token}
    (h : Gives last counted tokens) :
    last.reads = counted.reads + tokens.length ∧ last.pushes = counted.pushes := by
  induction h with
  | nil => exact ⟨rfl, rfl⟩
  | cons hnext _ ih =>
    obtain rfl := (Prod.mk.inj hnext).2
    exact ⟨ih.1.trans (Nat.add_right_comm _ _ _), ih.2⟩

end CountedStream

/-! ## Tapes -/

namespace TokenTape

variable {tape last : TokenTape} {u : List Token} {t : Token}

theorem next_of_lt (h : tape.position < tape.tokens.length) :
    tape.next.1 = tape.tokens[tape.position] := by
  unfold next
  rw [List.getElem?_eq_getElem h]
  rfl

theorem next_of_le (h : tape.tokens.length ≤ tape.position) : tape.next.1 = tape.endToken := by
  unfold next
  rw [List.getElem?_eq_none h]
  rfl

theorem position_of_gives {tokens : List Token} (h : Gives last tape tokens) :
    last.position = tape.position + tokens.length := by
  induction h with
  | nil => rfl
  | cons hnext _ ih =>
    obtain rfl := (Prod.mk.inj hnext).2
    exact ih.trans (Nat.add_right_comm _ _ _)

/-- A tape gives the tokens that are left, and then its end-of-input token. -/
theorem exists_gives (tape : TokenTape) :
    ∃ last, Gives last tape (tape.tokens.drop tape.position ++ [tape.endToken]) := by
  obtain ⟨n, hn⟩ : ∃ n, tape.tokens.length - tape.position = n := ⟨_, rfl⟩
  induction n generalizing tape with
  | zero =>
    have hle : tape.tokens.length ≤ tape.position := by omega
    rw [List.drop_eq_nil_of_le hle, ← next_of_le hle]
    exact ⟨tape.next.2, .cons rfl .nil⟩
  | succ n ih =>
    have hlt : tape.position < tape.tokens.length := by omega
    have hleft : tape.tokens.length - (tape.position + 1) = n := by omega
    obtain ⟨last, hgives⟩ := ih tape.next.2 hleft
    rw [List.drop_eq_getElem_cons hlt, List.cons_append, ← next_of_lt hlt]
    exact ⟨last, .cons rfl hgives⟩

/-- The tokens that a tape gives before one with the name of the end of the input, which none of its
own tokens has, are those that are left. -/
theorem eq_drop_of_gives (h : Gives last tape (u ++ [t])) (hu : ∀ x ∈ u, x.name ≠ tape.eof)
    (ht : t.name = tape.eof) (htokens : ∀ x ∈ tape.tokens, x.name ≠ tape.eof) :
    u = tape.tokens.drop tape.position := by
  induction u generalizing tape with
  | nil =>
    cases h with
    | cons hnext _ =>
      cases hnext
      symm
      rw [List.drop_eq_nil_iff]
      refine Nat.le_of_not_lt fun hlt => ?_
      rw [next_of_lt hlt] at ht
      exact htokens _ (List.getElem_mem _) ht
  | cons x u ih =>
    cases h with
    | cons hnext hrest =>
      cases hnext
      have hlt : tape.position < tape.tokens.length := by
        refine Nat.lt_of_not_le fun hle => hu tape.next.1 List.mem_cons_self ?_
        rw [next_of_le hle]
        rfl
      rw [List.drop_eq_getElem_cons hlt, ← next_of_lt hlt]
      exact congrArg _ (ih hrest (fun y hy => hu y (List.mem_cons_of_mem _ hy)) ht htokens)

/-- A tape ends when it says so. -/
theorem endsAfter (tape : TokenTape) :
    EndsAfter tape.eof (TokenStream.remaining tape) tape := by
  refine TokenStream.endsAfter_of_measure (fun s => s.eof = tape.eof)
    (fun s => s.eof = tape.eof ∧ s.tokens.length ≤ s.position) TokenStream.remaining ?_ ?_ rfl
  · rintro s ⟨heof, hle⟩
    refine ⟨⟨heof, Nat.le_succ_of_le hle⟩, fun t ht => ?_⟩
    rw [← Except.ok.inj ht, next_of_le hle]
    exact heof
  · intro s heof
    by_cases hle : s.tokens.length ≤ s.position
    · exact .inl ⟨heof, hle⟩
    · refine .inr ⟨heof, ?_⟩
      show s.tokens.length - (s.position + 1) < s.tokens.length - s.position
      omega

end TokenTape

/-! ## Tokenizers -/

namespace Scanner

variable {d : Dfa} {config : Config} {s : Scanner}

/-- A piece leaves less input, or everything as it is. -/
theorem piece_stuck (d : Dfa) (s : Scanner) :
    (s.piece d).2 = s ∨ (s.piece d).2.rest.length < s.rest.length := by
  have happend := d.munch_append 0 s.rest
  have hnext : (s.piece d).2 =
      { rest := (d.munch 0 s.rest).rest
        line := s.line + lineBreaks (d.munch 0 s.rest).lexeme (d.munch 0 s.rest).rest } := by
    unfold piece
    dsimp only
    split <;> rfl
  rw [hnext]
  cases hlexeme : (d.munch 0 s.rest).lexeme with
  | nil =>
    rw [hlexeme, List.nil_append] at happend
    rw [happend]
    exact .inl rfl
  | cons c cs =>
    have hlength := congrArg List.length happend
    rw [hlexeme, List.length_append, List.length_cons] at hlength
    refine .inr ?_
    show (d.munch 0 s.rest).rest.length < _
    omega

theorem scan_stuck (d : Dfa) (config : Config) (s : Scanner) :
    (s.scan d config).scanner = s ∨ (s.scan d config).scanner.rest.length < s.rest.length := by
  fun_induction scan d config s with
  | case1 => exact .inl rfl
  | case2 s _ e next hp =>
    have hstuck := piece_stuck d s
    rw [hp] at hstuck
    exact hstuck
  | case3 s _ t next hp _ scan ih =>
    have hlt := length_rest_of_piece hp
    refine .inr ?_
    show scan.scanner.rest.length < s.rest.length
    rcases ih with heq | hlt'
    · rwa [heq]
    · exact Nat.lt_trans hlt' hlt
  | case4 s _ t next hp => exact .inr (length_rest_of_piece hp)

end Scanner

namespace Tokenizer

/-- There is nothing to give again, and the scanner reads nothing more. -/
def Stuck (t : Tokenizer) : Prop := t.ahead = [] ∧ t.scan.scanner = t.scanner

variable {t : Tokenizer}

/-- A call keeps the patterns and the configuration. -/
theorem next_keeps (t : Tokenizer) :
    t.next.2.patterns = t.patterns ∧ t.next.2.config = t.config := by
  unfold next
  split
  · exact ⟨rfl, rfl⟩
  · dsimp only
    split <;> exact ⟨rfl, rfl⟩

/-- With nothing to give again, a call gives what the scanner does. -/
theorem next_of_ahead_eq_nil (h : t.ahead = []) : t.next.1 = t.scan.outcome ∧
    t.next.2.ahead = [] ∧ t.next.2.scanner = t.scan.scanner := by
  unfold next
  rw [h]
  dsimp only
  split
  · next heq => exact ⟨heq.symm, rfl, rfl⟩
  · next heq => exact ⟨heq.symm, rfl, rfl⟩

/-- A call leaves less to give, unless the tokenizer is stuck. -/
theorem stuck_or_remaining_next (t : Tokenizer) : t.Stuck ∨ t.next.2.remaining < t.remaining := by
  cases hahead : t.ahead with
  | cons token ahead =>
    refine .inr ?_
    unfold next remaining
    rw [hahead]
    simp
  | nil =>
    obtain ⟨-, hnext, hscanner⟩ := next_of_ahead_eq_nil hahead
    rcases Scanner.scan_stuck t.patterns.dfa t.config t.scanner with heq | hlt
    · exact .inl ⟨hahead, heq⟩
    · refine .inr ?_
      unfold remaining
      rw [hnext, hahead, hscanner]
      exact Nat.add_lt_add_left hlt _

/-- A stuck tokenizer stays so, and gives no token but the end of the input. -/
theorem Stuck.next (h : t.Stuck) :
    t.next.2.Stuck ∧ ∀ token, t.next.1 = .ok token → token.name = t.config.eof := by
  obtain ⟨hahead, hscan⟩ := h
  obtain ⟨hgiven, hnext, hscanner⟩ := next_of_ahead_eq_nil hahead
  obtain ⟨hpatterns, hconfig⟩ := t.next_keeps
  have hsame : t.next.2.scan = t.scan := by
    unfold scan
    rw [hpatterns, hconfig, hscanner, hscan]
  refine ⟨⟨hnext, hsame ▸ hscanner.symm⟩, fun token htoken => ?_⟩
  refine (Scanner.length_rest_of_scan (hgiven.symm.trans htoken)).resolve_right fun hlt => ?_
  rw [show t.scanner.scan t.patterns.dfa t.config = t.scan from rfl, hscan] at hlt
  exact Nat.lt_irrefl _ hlt

/-- A tokenizer ends when it says so. -/
theorem endsAfter (t : Tokenizer) : EndsAfter t.config.eof t.remaining t := by
  refine TokenStream.endsAfter_of_measure (fun s => s.config.eof = t.config.eof)
    (fun s => s.config.eof = t.config.eof ∧ s.Stuck) remaining ?_ ?_ rfl
  · rintro s ⟨heof, hstuck⟩
    obtain ⟨hnext, hgiven⟩ := hstuck.next
    refine ⟨⟨?_, hnext⟩, fun token ht => (hgiven token ht).trans heof⟩
    rw [← heof, ← s.next_keeps.2]
    rfl
  · intro s heof
    refine s.stuck_or_remaining_next.imp (fun hstuck => ⟨heof, hstuck⟩) fun hlt => ⟨?_, hlt⟩
    rw [← heof, ← s.next_keeps.2]
    rfl

end Tokenizer

end Predictive
