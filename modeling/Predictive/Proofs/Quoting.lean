import Predictive.Text.Quoted

/-!
# Quoted texts

A piece of a text is told from what follows it by an end that it does not hold
(`append_cons_inj_of_notMem`), and pieces that tell where they end by an end with which none of them
begins (`flatMap_append_inj`). So a quoted text holds no line break (`feed_notMem_quoted`), and tells
which text was quoted (`quoted_injective`): a character that is written as it is is no backslash, an
escape by one letter tells its character, and an escape by digits ends at the first closing brace.
-/

namespace Predictive.Text

/-- A text is cut in one way at the first place of a character. -/
theorem append_cons_inj_of_notMem {x x' z z' : List Char} {c : Char} (h : c ∉ x) (h' : c ∉ x')
    (heq : x ++ c :: z = x' ++ c :: z') : x = x' ∧ z = z' := by
  induction x generalizing x' with
  | nil =>
    cases x' with
    | nil => exact ⟨rfl, (List.cons.inj heq).2⟩
    | cons d x' => exact absurd (List.cons.inj heq).1 (fun hd => h' (hd ▸ List.mem_cons_self))
  | cons d x ih =>
    cases x' with
    | nil => exact absurd (List.cons.inj heq).1 (fun hd => h (hd ▸ List.mem_cons_self))
    | cons d' x' =>
      obtain ⟨rfl, hrest⟩ := List.cons.inj heq
      obtain ⟨rfl, rfl⟩ := ih (mt (List.mem_cons_of_mem d) h) (mt (List.mem_cons_of_mem d) h') hrest
      exact ⟨rfl, rfl⟩

/-- Pieces that tell where they end are told apart up to a character with which none begins. -/
theorem flatMap_append_inj {α : Type} {f : α → List Char} {stop : Char}
    (hinj : ∀ {a b x y}, f a ++ x = f b ++ y → a = b ∧ x = y)
    (hstop : ∀ a x y, f a ++ x ≠ stop :: y) {as bs : List α} {x y : List Char}
    (h : as.flatMap f ++ stop :: x = bs.flatMap f ++ stop :: y) : as = bs ∧ x = y := by
  induction as generalizing bs with
  | nil =>
    cases bs with
    | nil => exact ⟨rfl, (List.cons.inj h).2⟩
    | cons b bs =>
      rw [List.flatMap_cons, List.append_assoc] at h
      exact absurd h.symm (hstop b _ _)
  | cons a as ih =>
    cases bs with
    | nil =>
      rw [List.flatMap_cons, List.append_assoc] at h
      exact absurd h (hstop a _ _)
    | cons b bs =>
      rw [List.flatMap_cons, List.flatMap_cons, List.append_assoc, List.append_assoc] at h
      obtain ⟨rfl, hrest⟩ := hinj h
      obtain ⟨rfl, rfl⟩ := ih hrest
      exact ⟨rfl, rfl⟩

/-! ## Digits -/

/-- The digits of hexadecimal numbers. -/
def hexDigits : List Char := "0123456789abcdef".toList

theorem digitChar_injOn : ∀ i < 16, ∀ j < 16, Nat.digitChar i = Nat.digitChar j → i = j := by decide

theorem mem_hexDigits_of_lt : ∀ i < 16, Nat.digitChar i ∈ hexDigits := by decide

theorem mem_hexDigits_of_mem_toDigits (n : Nat) : ∀ c ∈ Nat.toDigits 16 n, c ∈ hexDigits := by
  induction n using Nat.strongRecOn with
  | ind n ih =>
    rw [Nat.toDigits_eq_if (by decide)]
    split
    · next hn => exact List.forall_mem_singleton.2 (mem_hexDigits_of_lt n hn)
    · exact List.forall_mem_append.2 ⟨ih (n / 16) (by omega),
        List.forall_mem_singleton.2 (mem_hexDigits_of_lt _ (Nat.mod_lt n (by decide)))⟩

/-- Different numbers have different digits, in all bases up to sixteen. -/
theorem toDigits_injective {b m n : Nat} (hb : 1 < b) (hle : b ≤ 16)
    (h : Nat.toDigits b m = Nat.toDigits b n) : m = n := by
  induction m using Nat.strongRecOn generalizing n with
  | ind m ih =>
    rw [Nat.toDigits_eq_if hb, Nat.toDigits_eq_if (n := n) hb] at h
    split at h <;> split at h
    · next hm hn =>
      exact digitChar_injOn m (Nat.lt_of_lt_of_le hm hle) n (Nat.lt_of_lt_of_le hn hle)
        (List.singleton_inj.1 h)
    · exact absurd (List.append_eq_singleton_iff.1 h.symm) (by simp)
    · exact absurd (List.append_eq_singleton_iff.1 h) (by simp)
    · obtain ⟨hquotient, hremainder⟩ := List.append_inj' h rfl
      have hdiv : m / b = n / b := ih (m / b) (Nat.div_lt_self (by omega) hb) hquotient
      have hlt (k : Nat) : k % b < 16 := Nat.lt_of_lt_of_le (Nat.mod_lt k (Nat.lt_of_succ_lt hb)) hle
      have hmod := digitChar_injOn _ (hlt m) _ (hlt n) (List.singleton_inj.1 hremainder)
      rw [← Nat.div_add_mod m b, hdiv, hmod, Nat.div_add_mod]

/-! ## Escapes -/

/-- The character that an escape by one letter stands for. -/
def unescaped (letter : Char) : Char :=
  if letter = '0' then '\x00'
  else if letter = 't' then '\t'
  else if letter = 'r' then '\r'
  else if letter = 'n' then '\n'
  else letter

/-- How a character is written between double quotes: as it is, by a letter, or by its code. -/
theorem quoteChar_cases (c : Char) :
    (quoteChar '\x22' c = [c] ∧ c ≠ '\\' ∧ c ≠ '\x22' ∧ c ≠ '\n') ∨
    (∃ letter, quoteChar '\x22' c = ['\\', letter] ∧ unescaped letter = c ∧ letter ≠ 'u' ∧
      letter ≠ '\n') ∨
    quoteChar '\x22' c = unicodeEscape c := by
  unfold quoteChar
  split
  · next h => exact .inr (.inl ⟨'0', rfl, h.symm, by decide, by decide⟩)
  split
  · next h => exact .inr (.inl ⟨'t', rfl, h.symm, by decide, by decide⟩)
  split
  · next h => exact .inr (.inl ⟨'r', rfl, h.symm, by decide, by decide⟩)
  split
  · next h => exact .inr (.inl ⟨'n', rfl, h.symm, by decide, by decide⟩)
  next hfeed =>
    split
    · next h => exact .inr (.inl ⟨'\\', rfl, h.symm, by decide, by decide⟩)
    next hbackslash =>
      split
      · next h => exact .inr (.inl ⟨'\x22', rfl, h.symm, by decide, by decide⟩)
      next hquote =>
        split
        · exact .inr (.inr rfl)
        · exact .inl ⟨rfl, hbackslash, hquote, hfeed⟩

/-- A character is written without line breaks. -/
theorem feed_notMem_quoteChar (c : Char) : '\n' ∉ quoteChar '\x22' c := by
  rcases quoteChar_cases c with ⟨heq, -, -, hfeed⟩ | ⟨letter, heq, -, -, hfeed⟩ | heq
  · rw [heq, List.mem_singleton]
    exact Ne.symm hfeed
  · rw [heq]
    simpa using Ne.symm hfeed
  · have hdigits : '\n' ∉ Nat.toDigits 16 c.toNat := fun h =>
      absurd (mem_hexDigits_of_mem_toDigits _ _ h) (by decide)
    rw [heq, unicodeEscape]
    simp [hdigits]

/-- What is written for a character tells the character and where the next begins. -/
theorem quoteChar_append_inj {c d : Char} {x y : List Char}
    (h : quoteChar '\x22' c ++ x = quoteChar '\x22' d ++ y) : c = d ∧ x = y := by
  have hbrace (c : Char) : '\x7d' ∉ Nat.toDigits 16 c.toNat := fun h =>
    absurd (mem_hexDigits_of_mem_toDigits _ _ h) (by decide)
  rcases quoteChar_cases c with ⟨hc, hcb, -⟩ | ⟨l, hc, rfl, hlu, -⟩ | hc <;>
    rcases quoteChar_cases d with ⟨hd, hdb, -⟩ | ⟨l', hd, rfl, hlu', -⟩ | hd <;>
    rw [hc, hd] at h
  · exact List.cons.inj h
  · exact absurd (List.cons.inj h).1 hcb
  · exact absurd (List.cons.inj h).1 hcb
  · exact absurd (List.cons.inj h).1.symm hdb
  · obtain ⟨rfl, rfl⟩ := List.cons.inj (List.cons.inj h).2
    exact ⟨rfl, rfl⟩
  · exact absurd (List.cons.inj (List.cons.inj h).2).1 hlu
  · exact absurd (List.cons.inj h).1.symm hdb
  · exact absurd (List.cons.inj (List.cons.inj h).2).1.symm hlu'
  · simp only [unicodeEscape, List.append_assoc, List.cons_append, List.nil_append, List.cons.injEq,
      true_and] at h
    obtain ⟨hdigits, hrest⟩ := append_cons_inj_of_notMem (hbrace c) (hbrace d) h
    exact ⟨Char.toNat_inj.1 (toDigits_injective (by decide) (Nat.le_refl 16) hdigits), hrest⟩

/-- No character is written as the closing quote. -/
theorem quoteChar_append_ne (c : Char) (x y : List Char) : quoteChar '\x22' c ++ x ≠ '\x22' :: y := by
  rcases quoteChar_cases c with ⟨heq, -, hquote, -⟩ | ⟨letter, heq, -⟩ | heq <;> rw [heq] <;> intro h
  · exact hquote (List.cons.inj h).1
  · exact absurd (List.cons.inj h).1 (by decide)
  · exact absurd (List.cons.inj h).1 (by decide)

/-! ## Texts -/

theorem toList_quoted (s : String) :
    (quoted s).toList = '\x22' :: (s.toList.flatMap (quoteChar '\x22') ++ ['\x22']) :=
  String.toList_ofList

/-- A quoted text stays on its line. -/
theorem feed_notMem_quoted (s : String) : '\n' ∉ (quoted s).toList := by
  have hchars : '\n' ∉ s.toList.flatMap (quoteChar '\x22') := fun h => by
    obtain ⟨c, -, hc⟩ := List.mem_flatMap.1 h
    exact feed_notMem_quoteChar c hc
  rw [toList_quoted]
  simp only [List.mem_cons, List.mem_append, List.not_mem_nil, or_false, not_or]
  exact ⟨by decide, hchars, by decide⟩

/-- Different texts are quoted differently. -/
theorem quoted_injective {s t : String} (h : quoted s = quoted t) : s = t := by
  have hlist := congrArg String.toList h
  rw [toList_quoted, toList_quoted] at hlist
  exact String.toList_injective
    (flatMap_append_inj quoteChar_append_inj quoteChar_append_ne (List.cons.inj hlist).2).1

end Predictive.Text
