import Predictive.Grammar.RuleSet
import Predictive.Parse.Tree
import Predictive.Token.Basic

/-!
# Derivation trees

A `Derivation` derives a run of symbols: each terminal gives a token of its name, and each rule one
of its alternatives, derived in turn. `Derivation.tokens` reads off the tokens from left to right,
and `Derivation.collapse` the nodes of a parse tree. The leaves of these nodes are the tokens
(`Derivation.leavesOf_collapse`).
-/

namespace Predictive.Grammar

/-- The derivations of a run of symbols. -/
inductive Derivation (g : RuleSet) : List Symbol → Type
  | nil : Derivation g []
  /-- The empty group derives nothing. -/
  | empty {ss : List Symbol} (rest : Derivation g ss) : Derivation g (.empty :: ss)
  /-- A terminal derives a token of its name. -/
  | terminal {name : String} {id : Nat} {ss : List Symbol} (t : Token) (h : t.name = name)
      (rest : Derivation g ss) : Derivation g (.terminal name id :: ss)
  /-- A rule derives what the symbols of one of its alternatives derive. -/
  | rule {name : String} {id : Nat} {ss : List Symbol} (k : Nat) (a : Alternative Symbol)
      (h : (k, a) ∈ g.alternativesOf id) (inner : Derivation g a.sequence)
      (rest : Derivation g ss) : Derivation g (.rule name id :: ss)

/-- The nodes that a rule leaves in a tree when it is expanded by `a` and its children are known. A
rule made for a group or a repetition leaves its children. Any other leaves a node, unless that has
no children, or is marked and has only one, which then takes its place. -/
def Alternative.collapse (a : Alternative Symbol) (children : List Node) : List Node :=
  if a.subrule then children
  else
    match children with
    | [] => []
    | [child] => [if a.multiChild then child else .rule a.name a.multiChild [child]]
    | _ => [.rule a.name a.multiChild children]

namespace Derivation

variable {g : RuleSet} {ss ts : List Symbol}

/-- The tokens derived, from left to right. -/
def tokens {ss : List Symbol} : Derivation g ss → List Token
  | nil => []
  | empty rest => rest.tokens
  | terminal t _ rest => t :: rest.tokens
  | rule _ _ _ inner rest => inner.tokens ++ rest.tokens

/-- The nodes of a parse tree for the symbols derived. -/
def collapse {ss : List Symbol} : Derivation g ss → List Node
  | nil => []
  | empty rest => rest.collapse
  | terminal t _ rest => .leaf t.name t.lexeme :: rest.collapse
  | rule _ a _ inner rest => a.collapse inner.collapse ++ rest.collapse

/-- The parse tree for a rule that stands at the root, where its node is always kept. -/
def tree {name : String} {id : Nat} : Derivation g [.rule name id] → Node
  | rule _ a _ inner nil => .rule a.name a.multiChild inner.collapse

end Derivation

end Predictive.Grammar

namespace Predictive.Node

mutual

/-- The names and lexemes of the leaves of a tree, from left to right. -/
def leaves : Node → List (String × String)
  | leaf name lexeme => [(name, lexeme)]
  | rule _ _ children => leavesOf children

/-- The names and lexemes of the leaves of several trees. -/
def leavesOf : List Node → List (String × String)
  | [] => []
  | n :: ns => n.leaves ++ leavesOf ns

end

theorem leavesOf_append (ns ms : List Node) : leavesOf (ns ++ ms) = leavesOf ns ++ leavesOf ms := by
  induction ns with
  | nil => simp [leavesOf]
  | cons n ns ih => simp [leavesOf, ih]

end Predictive.Node

namespace Predictive.Grammar

open Node (leaves leavesOf)

/-- Collapsing drops, replaces and splices nodes, but no leaf. -/
theorem Alternative.leavesOf_collapse (a : Alternative Symbol) (children : List Node) :
    leavesOf (a.collapse children) = leavesOf children := by
  unfold Alternative.collapse
  split
  · rfl
  · split
    · rfl
    · split <;> simp [leavesOf, leaves]
    · simp [leavesOf, leaves]

namespace Derivation

variable {g : RuleSet} {ss ts : List Symbol}

/-- A derivation from a rule derives one of its alternatives. -/
theorem exists_eq_rule {name : String} {id : Nat} (d : Derivation g [.rule name id]) :
    ∃ k a, ∃ (h : (k, a) ∈ g.alternativesOf id) (inner : Derivation g a.sequence),
      d = .rule k a h inner .nil := by
  match d with
  | rule k a h inner nil => exact ⟨k, a, h, inner, rfl⟩

theorem leavesOf_collapse (d : Derivation g ss) :
    leavesOf d.collapse = d.tokens.map fun t => (t.name, t.lexeme) := by
  induction d with
  | nil => rfl
  | empty rest ih => exact ih
  | terminal t h rest ih => simp [collapse, tokens, leavesOf, leaves, ih]
  | rule k a h inner rest ihi ih =>
    rw [collapse, tokens, Node.leavesOf_append, a.leavesOf_collapse, ihi, ih, List.map_append]

/-- The leaves of a parse tree are the tokens derived. -/
theorem leaves_tree {name : String} {id : Nat} (d : Derivation g [.rule name id]) :
    d.tree.leaves = d.tokens.map fun t => (t.name, t.lexeme) := by
  obtain ⟨k, a, h, inner, rfl⟩ := d.exists_eq_rule
  rw [tree, leaves, inner.leavesOf_collapse, tokens, tokens, List.append_nil]

end Derivation

/-! ## Derived tokens -/

/-- The symbols derive the tokens. -/
def Derives (g : RuleSet) (ss : List Symbol) (tokens : List Token) : Prop :=
  ∃ d : Derivation g ss, d.tokens = tokens

namespace Derives

variable {g : RuleSet} {ss ts : List Symbol} {u v w : List Token}

theorem append (hs : Derives g ss u) (ht : Derives g ts v) : Derives g (ss ++ ts) (u ++ v) := by
  obtain ⟨d, rfl⟩ := hs
  obtain ⟨e, rfl⟩ := ht
  induction d with
  | nil => exact ⟨e, rfl⟩
  | empty rest ih =>
    obtain ⟨f, hf⟩ := ih
    exact ⟨.empty f, hf⟩
  | terminal t h rest ih =>
    obtain ⟨f, hf⟩ := ih
    exact ⟨.terminal t h f, congrArg (t :: ·) hf⟩
  | rule k a h inner rest _ ih =>
    obtain ⟨f, hf⟩ := ih
    exact ⟨.rule k a h inner f, by simp [Derivation.tokens, hf]⟩

/-- What two runs of symbols derive together is cut where the second begins. -/
theorem exists_of_append (h : Derives g (ss ++ ts) w) :
    ∃ u v, w = u ++ v ∧ Derives g ss u ∧ Derives g ts v := by
  obtain ⟨d, rfl⟩ := h
  induction ss with
  | nil => exact ⟨[], _, rfl, ⟨.nil, rfl⟩, ⟨d, rfl⟩⟩
  | cons s ss ih =>
    match s, d with
    | .empty, .empty rest =>
      obtain ⟨u, v, hw, ⟨e, he⟩, hv⟩ := ih rest
      exact ⟨u, v, hw, ⟨.empty e, he⟩, hv⟩
    | .terminal _ _, .terminal t ht rest =>
      obtain ⟨u, v, hw, ⟨e, he⟩, hv⟩ := ih rest
      exact ⟨t :: u, v, congrArg (t :: ·) hw, ⟨.terminal t ht e, congrArg (t :: ·) he⟩, hv⟩
    | .rule _ _, .rule k a h inner rest =>
      obtain ⟨u, v, hw, ⟨e, he⟩, hv⟩ := ih rest
      refine ⟨inner.tokens ++ u, v, ?_, ⟨.rule k a h inner e, ?_⟩, hv⟩
      · simp [Derivation.tokens, hw]
      · simp [Derivation.tokens, he]

end Derives

end Predictive.Grammar
