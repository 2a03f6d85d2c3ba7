import Predictive.Proofs.Except
import Predictive.Proofs.Layers

/-!
# Texts that compile

A text compiles if and only if, without spaces and tabs, it is a layered expression over the signs of
regular expressions, and all names in it are found (`Regex.exists_compile_iff`).
-/

namespace Predictive.Regex

variable {known : String → Bool} {l : Level} {s : List Char} {a : Regex}

/-- The signs of regular expressions, and the texts of their operands: characters, escapes, `.`,
embedded names that are known, and classes. -/
def signs (known : String → Bool) : Signs Char where
  bar c := c = '|'
  mark c := c = '*' ∨ c = '+' ∨ c = '?'
  opening c := c = '('
  closing c := c = ')'
  operand s := ∃ a, Atom known s a

theorem layered_of_written (h : Written known l s a) : Layered (signs known) l s := by
  have hclosed := closed_layered (signs known)
  induction h with
  | alt _ _ ihleft ihright => exact hclosed.alt ihleft rfl ihright
  | sequence _ ih => exact hclosed.sequence ih
  | concat _ _ ihleft ihright => exact hclosed.concat ihleft ihright
  | repetition _ ih => exact hclosed.repetition ih
  | star _ ih => exact hclosed.marked ih (.inl rfl)
  | plus _ ih => exact hclosed.marked ih (.inr (.inl rfl))
  | optional _ ih => exact hclosed.marked ih (.inr (.inr rfl))
  | operand _ ih => exact hclosed.atom ih
  | group _ ih => exact hclosed.group rfl ih rfl
  | atom h => exact hclosed.operand ⟨_, h⟩

/-- The texts that write some expression are closed under the rules of layered ones. -/
theorem closed_written : Closed (signs known) fun l s => ∃ a, Written known l s a where
  alt h hc ht := by
    obtain ⟨a, ha⟩ := h
    obtain ⟨b, hb⟩ := ht
    obtain rfl := hc
    exact ⟨_, ha.alt hb⟩
  sequence h := h.imp fun _ => .sequence
  concat h ht := by
    obtain ⟨a, ha⟩ := h
    obtain ⟨b, hb⟩ := ht
    exact ⟨_, ha.concat hb⟩
  repetition h := h.imp fun _ => .repetition
  marked h hc := by
    obtain ⟨a, ha⟩ := h
    rcases hc with rfl | rfl | rfl
    · exact ⟨_, ha.star⟩
    · exact ⟨_, ha.plus⟩
    · exact ⟨_, ha.optional⟩
  atom h := h.imp fun _ => .operand
  operand h := h.imp fun _ => .atom
  group ho h hc := by
    obtain ⟨a, ha⟩ := h
    obtain rfl := ho
    obtain rfl := hc
    exact ⟨a, ha.group⟩

/-- A text writes some expression if and only if it is layered. -/
theorem exists_written_iff : (∃ a, Written known l s a) ↔ Layered (signs known) l s :=
  ⟨fun ⟨_, h⟩ => layered_of_written h, Layered.of_closed closed_written⟩

/-- For every text and every lookup: the text compiles if and only if, without spaces and tabs, it is a
layered expression, in which every embedded name is found. -/
theorem exists_compile_iff (lookup : String → Option Nfa) (text : String) :
    (∃ n, compile lookup text = .ok n) ↔
      Layered (signs fun name => (lookup name).isSome) .alternation
        (text.toList.filter fun c => c ≠ ' ' ∧ c ≠ '\t') := by
  rw [← exists_written_iff]
  constructor
  · rintro ⟨n, hn⟩
    obtain ⟨a, hread, -⟩ := map_eq_ok_iff.1 hn
    exact ⟨a, read_eq_ok_iff.1 hread⟩
  · rintro ⟨a, ha⟩
    exact ⟨_, map_eq_ok_iff.2 ⟨a, read_eq_ok_iff.2 ha, rfl⟩⟩

end Predictive.Regex
