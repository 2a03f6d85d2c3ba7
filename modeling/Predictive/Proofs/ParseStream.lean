import Predictive.Proofs.ParseRun
import Predictive.Proofs.Streams

/-!
# Parsing a stream

What a parse of a stream has to do with the runs of the machine over lists of tokens. A run that is
done reads tokens one after another until the machine comes to a halt that gives the result, or the
stream fails (`run_cases`); so a tree is the result of an accepting run over the tokens that the
stream gives (`exists_accepts_of_parseTokens`). Where the machine always comes to a halt, an
accepting run is found (`parseTokens_of_accepts`). A parse takes nothing from a stream but the
tokens that it gives and how many it announces (`parseTokens_map`).
-/

namespace Predictive

variable {σ : Type} [TokenStream σ]

open TokenStream (Gives)

namespace Parse

variable {g : Grammar} {m final : Machine} {t : Token} {ts u : List Token}
  {result : Except ParseError Node} {stream last : σ}

/-- How an accepting run goes on after a halt, with the tokens after the lookahead. -/
def Halt.Accepts (g : Grammar) (final : Machine) (ts : List Token) : Halt → Prop
  | .read next => ∃ n, Machine.Accepts g final n next ts
  | .accept m => ts = [] ∧ final = m
  | .fail _ => False

/-- An accepting run goes through the halt that the machine comes to. -/
theorem accepts_iff_of_settle {steps : Nat} {halt : Halt} (h : m.settle g t steps = some halt) :
    (∃ n, Machine.Accepts g final n m (t :: ts)) ↔ halt.Accepts g final ts := by
  induction steps generalizing m with
  | zero => cases h
  | succ steps ih =>
    unfold Machine.settle at h
    split at h
    · next next hstep =>
      rw [← ih h]
      constructor
      · rintro ⟨n, hrun⟩
        obtain ⟨k, -, hrest⟩ := (Machine.Accepts.iff_of_silent hstep).1 hrun
        exact ⟨k, hrest⟩
      · exact fun ⟨k, hrest⟩ => ⟨k + 1, .silent hstep hrest⟩
    · next halt' hstep =>
      cases h
      cases halt with
      | read next =>
        constructor
        · rintro ⟨n, hrun⟩
          obtain ⟨k, -, hrest⟩ := (Machine.Accepts.iff_of_read hstep).1 hrun
          exact ⟨k, hrest⟩
        · exact fun ⟨k, hrest⟩ => ⟨k + 1, .read hstep hrest⟩
      | accept next =>
        constructor
        · rintro ⟨n, hrun⟩
          exact ((Machine.Accepts.iff_of_accept hstep).1 hrun).2
        · exact fun h => ⟨0, (Machine.Accepts.iff_of_accept hstep).2 ⟨rfl, h⟩⟩
      | fail e =>
        constructor
        · exact fun ⟨n, hrun⟩ => Machine.Accepts.not_of_fail hstep hrun
        · exact fun h => h.elim

/-! ## Rounds -/

/-- More rounds go on where the first ones end. -/
theorem run_add (g : Grammar) (taskBound a b : Nat) (m : Machine) (t : Token) (stream : σ) :
    run g taskBound (a + b) m t stream =
      match run g taskBound a m t stream with
      | .more m t stream => run g taskBound b m t stream
      | progress => progress := by
  induction a generalizing m t stream with
  | zero => rw [Nat.zero_add]; rfl
  | succ a ih =>
    rw [Nat.add_right_comm, run, run]
    cases m.settle g t (m.bound taskBound) with
    | none => rfl
    | some halt =>
      cases halt with
      | accept m => rfl
      | fail e => rfl
      | read next =>
        dsimp only
        split
        · rfl
        · exact ih _ _ _

theorem bound_pos (g : Grammar) (m : Machine) : 0 < m.bound (Machine.taskBound g) :=
  Nat.mul_pos (Nat.succ_pos _) (Nat.pow_pos (Nat.succ_pos _))

/-- The machine reads the tokens one after another, and then is the machine `final`. -/
inductive ReadsTo (g : Grammar) (final : Machine) : Machine → List Token → Prop
  | refl : ReadsTo g final final []
  | read {steps : Nat} {m next : Machine} {t : Token} {ts : List Token}
    (h : m.settle g t steps = some (.read next)) (rest : ReadsTo g final next ts) :
    ReadsTo g final m (t :: ts)

/-- The result of a halt at which the parse ends. -/
def Halt.result? : Halt → Option (Except ParseError Node)
  | .read _ => none
  | .accept m => some m.result
  | .fail e => some (.error e)

/-- A run that is done has failed to read from the stream, or has read tokens up to one for which
the machine comes to a halt with the result. -/
theorem run_cases {taskBound rounds : Nat} {before : σ}
    (hnext : TokenStream.next before = (.ok t, stream))
    (h : run g taskBound rounds m t stream = .done result last) :
    (∃ e, result = .error (.tokenize e)) ∨
      ∃ u found final halt steps, ReadsTo g final m u ∧ Gives last before (u ++ [found]) ∧
        final.settle g found steps = some halt ∧ halt.result? = some result := by
  induction rounds generalizing before m t stream with
  | zero => cases h
  | succ rounds ih =>
    unfold run at h
    split at h
    · cases h
    · next final hsettle =>
      cases h
      exact .inr ⟨[], t, m, _, _, .refl, .cons hnext .nil, hsettle, rfl⟩
    · next e hsettle =>
      cases h
      exact .inr ⟨[], t, m, _, _, .refl, .cons hnext .nil, hsettle, rfl⟩
    · next next hsettle =>
      split at h
      · next e stream' hnext' =>
        cases h
        exact .inl ⟨e, rfl⟩
      · next t' stream' hnext' =>
        refine (ih hnext' h).imp_right ?_
        rintro ⟨u, found, final, halt, steps, hreads, hgives, hhalt⟩
        exact ⟨t :: u, found, final, halt, steps, .read hsettle hreads, .cons hnext hgives, hhalt⟩

theorem ReadsTo.accepts {final last : Machine} (h : ReadsTo g final m u)
    (hfinal : ∃ n, Machine.Accepts g last n final ts) :
    ∃ n, Machine.Accepts g last n m (u ++ ts) := by
  induction h with
  | refl => exact hfinal
  | read hsettle _ ih => exact (accepts_iff_of_settle hsettle).2 ih

end Parse

/-! ## From a parse to a run -/

variable {g : Grammar} {stream last : σ} {result : Except ParseError Node}

/-- A parse is a run from the start, unless there is no first token. -/
theorem exists_run_of_parseTokens (h : g.parseTokens stream = some (result, last)) :
    (∃ e, result = .error (.tokenize e)) ∨
      ∃ t next rounds, TokenStream.next stream = (.ok t, next) ∧
        Parse.run g (Parse.Machine.taskBound g) rounds (.start g) t next = .done result last := by
  unfold Grammar.parseTokens at h
  dsimp only at h
  split at h
  · next e next hnext =>
    cases h
    exact .inl ⟨e, rfl⟩
  · next t next hnext =>
    refine .inr ⟨t, next, ?_⟩
    split at h
    · next hrun =>
      cases h
      exact ⟨_, hnext, hrun⟩
    · cases h
    · next m' t' next' hmore =>
      split at h
      · next hrun =>
        cases h
        refine ⟨TokenStream.remaining next + 1 + m'.bound (Parse.Machine.taskBound g), hnext, ?_⟩
        rw [Parse.run_add, hmore]
        exact hrun
      · cases h

/-- A run that is done with a tree has accepted the tokens that the stream gave. -/
theorem exists_accepts_of_run {t : Token} {next : σ} {taskBound rounds : Nat} {tree : Node}
    (hnext : TokenStream.next stream = (.ok t, next))
    (hrun : Parse.run g taskBound rounds (.start g) t next = .done (.ok tree) last) :
    ∃ w final, Gives last stream w ∧ (∃ n, Parse.Machine.Accepts g final n (.start g) w) ∧
      final.result = .ok tree := by
  rcases Parse.run_cases hnext hrun with ⟨e, he⟩ | ⟨u, found, m, halt, steps, hreads, hgives, hhalt⟩
  · cases he
  obtain ⟨hsettle, hresult⟩ := hhalt
  cases halt with
  | read next => cases hresult
  | fail e => cases hresult
  | accept final =>
    have haccepts := (Parse.accepts_iff_of_settle hsettle).2
      (show Parse.Halt.Accepts g final [] _ from ⟨rfl, rfl⟩)
    exact ⟨u ++ [found], final, hgives, hreads.accepts haccepts, Option.some.inj hresult⟩

/-- A tree is the result of an accepting run over the tokens that the stream gives. -/
theorem exists_accepts_of_parseTokens {tree : Node}
    (h : g.parseTokens stream = some (.ok tree, last)) :
    ∃ w final, Gives last stream w ∧ (∃ n, Parse.Machine.Accepts g final n (.start g) w) ∧
      final.result = .ok tree := by
  rcases exists_run_of_parseTokens h with ⟨e, he⟩ | ⟨t, next, rounds, hnext, hrun⟩
  · cases he
  · exact exists_accepts_of_run hnext hrun

/-! ## From a run to a parse -/

/-- A run that is done whenever it has two rounds more than the stream announces is found. -/
theorem parseTokens_of_run {t : Token} {next : σ} (hnext : TokenStream.next stream = (.ok t, next))
    (h : ∀ rounds, TokenStream.remaining next + 1 < rounds →
      Parse.run g (Parse.Machine.taskBound g) rounds (.start g) t next = .done result last) :
    g.parseTokens stream = some (result, last) := by
  have hadd (b : Nat) (hb : 0 < b) := (Parse.run_add g (Parse.Machine.taskBound g)
    (TokenStream.remaining next + 1) b (.start g) t next).symm.trans
      (h _ (Nat.lt_add_of_pos_right hb))
  unfold Grammar.parseTokens
  dsimp only
  rw [hnext]
  dsimp only
  cases hrun : Parse.run g (Parse.Machine.taskBound g) (TokenStream.remaining next + 1) (.start g) t
      next with
  | done result' last' =>
    have hdone := hadd 1 Nat.one_pos
    rw [hrun] at hdone
    cases hdone
    rfl
  | more m' t' next' =>
    have hdone := hadd (m'.bound (Parse.Machine.taskBound g)) (Parse.bound_pos g m')
    rw [hrun] at hdone
    dsimp only at hdone ⊢
    rw [hdone]
  | endless =>
    have hdone := hadd 1 Nat.one_pos
    rw [hrun] at hdone
    cases hdone

namespace Parse

/-- With any lookahead token, every machine comes to a halt within the bound on its steps. -/
def AlwaysHalts (g : Grammar) : Prop :=
  ∀ (m : Machine) (t : Token), ∃ halt, m.settle g t (m.bound (Machine.taskBound g)) = some halt

variable {m final : Machine} {t : Token} {ts : List Token}

/-- An accepting run is done in more rounds than it reads tokens after the lookahead. -/
theorem run_of_accepts (hhalts : AlwaysHalts g) (hgives : Gives last stream ts)
    (h : ∃ n, Machine.Accepts g final n m (t :: ts)) {rounds : Nat} (hrounds : ts.length < rounds) :
    run g (Machine.taskBound g) rounds m t stream = .done final.result last := by
  induction rounds generalizing m t stream ts with
  | zero => omega
  | succ rounds ih =>
    unfold run
    obtain ⟨halt, hsettle⟩ := hhalts m t
    rw [accepts_iff_of_settle hsettle] at h
    rw [hsettle]
    cases halt with
    | fail e => exact h.elim
    | accept m' =>
      obtain ⟨rfl, rfl⟩ := h
      cases hgives
      rfl
    | read next =>
      obtain ⟨n, hrun⟩ := h
      obtain ⟨t', us, rfl⟩ := hrun.exists_cons
      cases hgives with
      | cons hnext hgives =>
        dsimp only
        rw [hnext]
        exact ih hgives ⟨n, hrun⟩ (by simpa using hrounds)

end Parse

/-- An accepting run over the tokens that a stream gives is found, if these are no more than the
stream announces. -/
theorem parseTokens_of_accepts {next : σ} {t : Token} {ts : List Token} {final : Parse.Machine}
    (hhalts : Parse.AlwaysHalts g) (hnext : TokenStream.next stream = (.ok t, next))
    (hgives : Gives last next ts) (hlen : ts.length ≤ TokenStream.remaining next + 1)
    (h : ∃ n, Parse.Machine.Accepts g final n (.start g) (t :: ts)) :
    g.parseTokens stream = some (final.result, last) :=
  parseTokens_of_run hnext fun _ hrounds =>
    Parse.run_of_accepts hhalts hgives h (Nat.lt_of_le_of_lt hlen hrounds)

/-! ## Maps of streams -/

section

variable {τ : Type} [TokenStream τ] {f : σ → τ}

/-- The stream in which a run leaves its own is mapped. -/
def Parse.Progress.map (f : σ → τ) : Progress σ → Progress τ
  | .done result stream => .done result (f stream)
  | .more m lookahead stream => .more m lookahead (f stream)
  | .endless => .endless

theorem Parse.run_map (hf : TokenStream.Maps f) (g : Grammar) (taskBound rounds : Nat) (m : Machine)
    (t : Token) (stream : σ) :
    run g taskBound rounds m t (f stream) = (run g taskBound rounds m t stream).map f := by
  induction rounds generalizing m t stream with
  | zero => rfl
  | succ rounds ih =>
    rw [run, run, hf.next]
    cases m.settle g t (m.bound taskBound) with
    | none => rfl
    | some halt =>
      cases halt with
      | accept m => rfl
      | fail e => rfl
      | read m =>
        obtain ⟨token, next⟩ := TokenStream.next stream
        cases token with
        | error e => rfl
        | ok t => exact ih m t next

/-- A parse takes nothing from a stream but what it gives and how much it announces. -/
theorem parseTokens_map (hf : TokenStream.Maps f) (g : Grammar) (stream : σ) :
    g.parseTokens (f stream) = (g.parseTokens stream).map fun answer => (answer.1, f answer.2) := by
  unfold Grammar.parseTokens
  dsimp only
  rw [hf.next]
  obtain ⟨token, next⟩ := TokenStream.next stream
  cases token with
  | error e => rfl
  | ok t =>
    dsimp only
    rw [Parse.run_map hf, hf.remaining]
    cases Parse.run g (Parse.Machine.taskBound g) (TokenStream.remaining next + 1) (.start g) t
        next with
    | done result last => rfl
    | endless => rfl
    | more m' t' next' =>
      dsimp only [Parse.Progress.map]
      rw [Parse.run_map hf]
      cases Parse.run g (Parse.Machine.taskBound g) (m'.bound (Parse.Machine.taskBound g)) m' t'
          next' with
      | done result last => rfl
      | endless => rfl
      | more m t last => rfl

end

end Predictive
