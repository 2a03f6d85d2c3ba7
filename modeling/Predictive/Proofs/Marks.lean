import Predictive.Proofs.Numbering
import Predictive.Proofs.TreeShape

/-!
# Marked blocks

The marker `[>1]` ends a block, and it counts for the alternatives of this block only
(`Block.eq_alternative_of_mem_desugar`): a rule with several blocks can have alternatives of either
kind. A node is opened with the mark of the alternative that is expanded, and a node that is closed with
exactly one child gives way to it if it has the mark. This is what every step keeps
(`Parse.Machine.Expanded.step`), so a node below the root with exactly one child is one of an unmarked
block, whatever marks the other blocks of its rule have (`Grammar.marks_of_parseTokens`).
-/

namespace Predictive

/-! ## The marks of alternatives -/

namespace Grammar

variable {a : Alternative Item} {b : Block} {first : Nat}

/-- What is added for a right-hand side is what its block makes of names and symbols. -/
theorem Expr.eq_alternative_of_mem_added {x : Expr} {owner : String} (ha : a ∈ x.added b owner first) :
    a = b.alternative a.name a.sequence := by
  induction x generalizing owner first with
  | name n | empty => cases ha
  | group x ih =>
    rcases List.mem_append.1 ha with ha | ha
    · exact ih ha
    · obtain rfl := List.mem_singleton.1 ha
      rfl
  | concat l r ihl ihr =>
    rcases List.mem_append.1 ha with ha | ha
    · exact ihl ha
    · exact ihr ha
  | alt l r ihl ihr =>
    simp only [added, List.mem_append, List.mem_singleton] at ha
    rcases ha with (ha | ha) | rfl
    · exact ihl ha
    · exact ihr ha
    · rfl
  | star x ih | optional x ih =>
    simp only [added, List.mem_append, List.mem_cons, List.not_mem_nil, or_false] at ha
    rcases ha with ha | rfl | rfl
    · exact ih ha
    · rfl
    · rfl

/-- The alternatives of a block have its line, and its mark if they have its name. -/
theorem Block.eq_alternative_of_mem_desugar (ha : a ∈ (b.desugar first).alternatives) :
    a = b.alternative a.name a.sequence := by
  rw [Block.desugar_eq] at ha
  rcases List.mem_append.1 ha with ha | ha
  · exact Expr.eq_alternative_of_mem_added ha
  · obtain rfl := List.mem_singleton.1 ha
    rfl

/-- An alternative that is not one of a sub-rule has the name, the line and the mark of its block. -/
theorem exists_block_of_mem_alternatives {eof : String} {blocks : List Block}
    {p : Nat × Alternative Symbol} (hp : p ∈ (RuleSet.ofTexts eof (desugarBlocks blocks)).alternatives)
    (hsub : p.2.subrule = false) :
    ∃ b ∈ blocks, b.name = p.2.name ∧ b.line = p.2.line ∧ b.multiChild = p.2.multiChild := by
  obtain ⟨k, a⟩ := p
  obtain ⟨r, ha⟩ := RuleSet.exists_mem_alternativesOf hp
  obtain ⟨text, c, htext, hc, rfl⟩ := RuleSet.exists_text_of_mem_alternativesOf ha
  obtain ⟨-, b, hb, first, hmem⟩ := exists_block_of_mem_desugarBlocks (List.mem_of_getElem? htext) hc
  have hname : c.name = b.name := by
    by_contra hne
    have hmarked : c.subrule = true := (b.marked_desugar first c hmem).2.2 hne
    exact Bool.false_ne_true (hsub.symm.trans hmarked)
  have heq := Block.eq_alternative_of_mem_desugar hmem
  refine ⟨b, hb, hname.symm, (congrArg (·.line) heq).symm, ?_⟩
  show b.multiChild = c.multiChild
  rw [heq, hname]
  simp [Block.alternative]

end Grammar

/-! ## The marks of nodes -/

namespace Node

/-- With a mark, the node has not exactly one child. -/
def Plural : Node → Prop
  | .rule _ true children => children.length ≠ 1
  | _ => True

/-- The rule nodes of the tree have the names and the marks of alternatives that are written, and those
below the root that are marked have not exactly one child. -/
inductive Expanded (g : Grammar.RuleSet) : Node → Prop
  | leaf (name lexeme : String) : Expanded g (.leaf name lexeme)
  | rule {p : Nat × Grammar.Alternative Grammar.Symbol} {children : List Node} :
      p ∈ g.alternatives → p.2.subrule = false → (∀ child ∈ children, Expanded g child) →
      (∀ child ∈ children, child.Plural) → Expanded g (.rule p.2.name p.2.multiChild children)

namespace Expanded

variable {g : Grammar.RuleSet} {name : String} {multiChild : Bool} {children children' : List Node}
  {node tree : Node}

theorem exists_alternative (h : Expanded g (.rule name multiChild children)) :
    ∃ p ∈ g.alternatives, p.2.subrule = false ∧ p.2.name = name ∧ p.2.multiChild = multiChild := by
  cases h with
  | rule hp hsub _ _ => exact ⟨_, hp, hsub, rfl, rfl⟩

theorem of_mem_children (h : Expanded g tree) (hnode : node ∈ tree.children) :
    Expanded g node ∧ node.Plural := by
  cases h with
  | leaf => exact absurd hnode List.not_mem_nil
  | rule _ _ hchildren hplural => exact ⟨hchildren _ hnode, hplural _ hnode⟩

theorem of_below (h : Expanded g tree) (hnode : Below node tree) : Expanded g node ∧ node.Plural := by
  induction hnode with
  | child hmem => exact h.of_mem_children hmem
  | deeper _ hmem ih => exact ih (h.of_mem_children hmem).1

/-- The children may be others. -/
theorem replace (h : Expanded g (.rule name multiChild children))
    (hchildren : ∀ child ∈ children', Expanded g child ∧ child.Plural) :
    Expanded g (.rule name multiChild children') := by
  cases h with
  | rule hp hsub _ _ =>
    exact .rule hp hsub (fun child hchild => (hchildren child hchild).1)
      fun child hchild => (hchildren child hchild).2

end Expanded

end Node

namespace Parse

open Node (Expanded)

/-- What a step leads to, unless it fails, has the property. -/
def Keeps (P : Machine → Prop) : Machine ⊕ Halt → Prop
  | .inl m | .inr (.read m) | .inr (.accept m) => P m
  | .inr (.fail _) => True

/-- What every step keeps, an accepting run keeps. -/
theorem Machine.Accepts.keeps {g : Grammar} {P : Machine → Prop} {m final : Machine} {n : Nat}
    {w : List Token} (h : Machine.Accepts g final n m w)
    (hstep : ∀ m t, P m → Keeps P (m.step g t)) (hm : P m) : P final := by
  induction h with
  | @accept m t hnext =>
    have hkeeps := hstep m t hm
    rwa [hnext] at hkeeps
  | @silent n m next t ts hnext _ ih | @read n m next t ts hnext _ ih =>
    have hkeeps := hstep m t hm
    rw [hnext] at hkeeps
    exact ih hkeeps

theorem OpenNode.plural_close {node : OpenNode}
    (h : node.multiChild = true → 2 ≤ node.children.length) : node.close.Plural := by
  obtain ⟨name, multiChild, children⟩ := node
  cases multiChild with
  | false => trivial
  | true =>
    show children.reverse.length ≠ 1
    rw [List.length_reverse]
    exact Nat.ne_of_gt (h rfl)

theorem OpenNode.Expanded.add {g : Grammar.RuleSet} {node : OpenNode} {child : Node}
    (h : node.close.Expanded g) (hchild : child.Expanded g) (hplural : child.Plural) :
    (node.add child).close.Expanded g := by
  refine h.replace fun c hc => ?_
  rcases List.mem_cons.1 (List.mem_reverse.1 hc) with rfl | hc
  · exact ⟨hchild, hplural⟩
  · exact h.of_mem_children (List.mem_reverse.2 hc)

namespace Machine

/-- The nodes that are open, if they were closed as they are, and the root, once it is closed. -/
structure Expanded (g : Grammar.RuleSet) (m : Machine) : Prop where
  nodes : ∀ node ∈ m.nodes, node.close.Expanded g
  root : ∀ tree, m.root = some tree → tree.Expanded g

namespace Expanded

variable {g : Grammar} {m : Machine} {stack : List Task}

theorem start (g : Grammar) : (Machine.start g).Expanded g.toRuleSet :=
  ⟨fun _ hnode => absurd hnode List.not_mem_nil, nofun⟩

theorem closeNode (h : m.Expanded g.toRuleSet) : m.closeNode.Expanded g.toRuleSet := by
  obtain ⟨stack, nodes, root⟩ := m
  match nodes with
  | [] => exact h
  | [node] =>
    refine ⟨fun _ hnode => absurd hnode List.not_mem_nil, ?_⟩
    rintro _ ⟨⟩
    exact h.nodes node List.mem_cons_self
  | node :: parent :: outer =>
    obtain ⟨hnode, houter⟩ := List.forall_mem_cons.1 h.nodes
    have hadd {child : Node} (hchild : child.Expanded g.toRuleSet) (hplural : child.Plural) :
        Machine.Expanded g.toRuleSet { stack, nodes := parent.add child :: outer, root } := by
      obtain ⟨hparent, houter⟩ := List.forall_mem_cons.1 houter
      exact ⟨List.forall_mem_cons.2 ⟨OpenNode.Expanded.add hparent hchild hplural, houter⟩, h.root⟩
    rcases closeNode_cases stack node parent outer root with
      ⟨-, heq⟩ | ⟨child, hone, -, heq⟩ | ⟨-, hlength, heq⟩
    · rw [heq]
      exact ⟨houter, h.root⟩
    · -- a child that takes the place of a node was below this node before
      have hmem : child ∈ node.close.children := by simp [OpenNode.close, Node.children, hone]
      obtain ⟨hchild, hplural⟩ := hnode.of_mem_children hmem
      rw [heq]
      exact hadd hchild hplural
    · rw [heq]
      exact hadd hnode (OpenNode.plural_close hlength)

theorem addLeaf (h : m.Expanded g.toRuleSet) (t : Token) : (m.addLeaf t).Expanded g.toRuleSet := by
  obtain ⟨stack, nodes, root⟩ := m
  cases nodes with
  | nil => exact h
  | cons node outer =>
    obtain ⟨hnode, houter⟩ := List.forall_mem_cons.1 h.nodes
    exact ⟨List.forall_mem_cons.2 ⟨OpenNode.Expanded.add hnode (.leaf _ _) trivial, houter⟩, h.root⟩

theorem expand (h : m.Expanded g.toRuleSet) {p : Nat × Grammar.Alternative Grammar.Symbol}
    (hp : p ∈ g.alternatives) : (m.expand p.2).Expanded g.toRuleSet := by
  cases hsub : p.2.subrule with
  | true =>
    rw [Machine.expand_of_subrule hsub]
    exact ⟨h.nodes, h.root⟩
  | false =>
    rw [Machine.expand_of_not_subrule hsub]
    refine ⟨List.forall_mem_cons.2 ⟨?_, h.nodes⟩, h.root⟩
    exact .rule hp hsub (fun _ hchild => absurd hchild List.not_mem_nil)
      fun _ hchild => absurd hchild List.not_mem_nil

/-- Every step keeps this: nodes are opened for the alternatives of the table. -/
theorem step (hg : g.Compiled) (hr : g.Resolved) (m : Machine) (t : Token)
    (h : m.Expanded g.toRuleSet) : Keeps (·.Expanded g.toRuleSet) (m.step g t) := by
  have hrest (stack : List Task) : Machine.Expanded g.toRuleSet { m with stack } := ⟨h.nodes, h.root⟩
  unfold Machine.step
  split
  · exact h
  · exact (hrest _).closeNode
  · exact hrest _
  · dsimp only
    split
    · trivial
    split
    · exact hrest _
    · exact (hrest _).addLeaf t
  · split
    · next a hchoice =>
      obtain ⟨k, ha⟩ := hg.exists_mem_of_choice hr hchoice
      exact (hrest _).expand (Grammar.RuleSet.mem_alternatives_of_mem_alternativesOf ha)
    · trivial

theorem closeNodes (h : m.Expanded g.toRuleSet) (n : Nat) :
    (m.closeNodes n).Expanded g.toRuleSet := by
  induction n generalizing m with
  | zero => exact h
  | succ n ih => exact ih h.closeNode

theorem result (h : m.Expanded g.toRuleSet) {tree : Node} (htree : m.result = .ok tree) :
    tree.Expanded g.toRuleSet := by
  unfold Machine.result at htree
  split at htree
  · next root hroot =>
    cases htree
    exact (h.closeNodes _).root _ hroot
  · cases htree

end Expanded

end Machine

end Parse

/-! ## Compiled grammars -/

namespace Grammar

open Node (Below)

variable {text : String} {config : Config} {g : Grammar} {σ : Type} [TokenStream σ]

theorem expanded_of_parseTokens (h : Grammar.parse text config = .ok g) {stream last : σ} {tree : Node}
    (hparse : g.parseTokens stream = some (.ok tree, last)) : tree.Expanded g.toRuleSet := by
  obtain ⟨hcompiled, hrules⟩ := compiled_of_parse h
  obtain ⟨w, final, -, ⟨n, haccepts⟩, hresult⟩ := exists_accepts_of_parseTokens hparse
  have hfinal : final.Expanded g.toRuleSet := haccepts.keeps
    (Parse.Machine.Expanded.step hcompiled (resolved_of_readRules hrules))
    (Parse.Machine.Expanded.start g)
  exact hfinal.result hresult

/-- Alternatives have the marks of the blocks in which they are written, and in every tree that a parse
gives, rule nodes have the marks of alternatives of their names. Below the root, a node with exactly one
child is not marked; so there is none if all blocks of its rule are marked. -/
theorem marks_of_parseTokens (h : Grammar.parse text config = .ok g) {stream last : σ} {tree : Node}
    (hparse : g.parseTokens stream = some (.ok tree, last)) :
    ∃ blocks, readBlocks text = .ok blocks ∧
      (∀ p ∈ g.alternatives, p.2.subrule = false →
        ∃ b ∈ blocks, b.name = p.2.name ∧ b.line = p.2.line ∧ b.multiChild = p.2.multiChild) ∧
      (∀ name multiChild children, .rule name multiChild children = tree ∨
          Below (.rule name multiChild children) tree →
        ∃ p ∈ g.alternatives, p.2.subrule = false ∧ p.2.name = name ∧ p.2.multiChild = multiChild) ∧
      (∀ name multiChild child, Below (.rule name multiChild [child]) tree → multiChild = false) ∧
      ∀ name, (∀ b ∈ blocks, b.name = name → b.multiChild = true) →
        ∀ multiChild child, ¬ Below (.rule name multiChild [child]) tree := by
  obtain ⟨b, blocks, hblocks, hrules⟩ := exists_blocks_of_readRules (compiled_of_parse h).2
  have hexpanded := expanded_of_parseTokens h hparse
  have hmarks : ∀ p ∈ g.alternatives, p.2.subrule = false → ∃ c ∈ b :: blocks,
      c.name = p.2.name ∧ c.line = p.2.line ∧ c.multiChild = p.2.multiChild := by
    rw [hrules]
    exact fun p hp hsub => exists_block_of_mem_alternatives hp hsub
  have hsingle (name : String) (multiChild : Bool) (child : Node)
      (hbelow : Below (.rule name multiChild [child]) tree) : multiChild = false := by
    have hplural := (hexpanded.of_below hbelow).2
    cases multiChild with
    | false => rfl
    | true => exact absurd rfl hplural
  refine ⟨b :: blocks, hblocks, hmarks, fun name multiChild children hnode => ?_, hsingle, ?_⟩
  · rcases hnode with rfl | hbelow
    · exact hexpanded.exists_alternative
    · exact (hexpanded.of_below hbelow).1.exists_alternative
  · intro name hname multiChild child hbelow
    obtain ⟨p, hp, hsub, rfl, rfl⟩ := (hexpanded.of_below hbelow).1.exists_alternative
    obtain ⟨c, hc, hcname, -, hmark⟩ := hmarks p hp hsub
    have hunmarked := hsingle _ _ _ hbelow
    rw [← hmark, hname c hc hcname] at hunmarked
    cases hunmarked

/-- Two blocks of one rule, of which the first is marked. -/
def halfMarked : String := "S -> A x\nA -> a [>1]\nA -> b"

/-- The blocks of `halfMarked`. -/
def halfMarkedBlocks : List Block :=
  [{ name := "S", body := .concat (.name "A") (.name "x"), multiChild := false, line := 1 },
   { name := "A", body := .name "a", multiChild := true, line := 2 },
   { name := "A", body := .name "b", multiChild := false, line := 3 }]

set_option maxRecDepth 4000 in
theorem readBlocks_halfMarked : readBlocks halfMarked = .ok halfMarkedBlocks :=
  readBlocks_of_exists ⟨_, rfl, by decide +kernel⟩

/-- The tokens of a text that `A` begins, and that ends in `x`. -/
def halfMarkedTokens (a : String) : TokenTape :=
  .ofTokens [{ name := a, lexeme := a, line := 1 }, { name := "x", lexeme := "x", line := 1 }] {}

/-- With the marked block of `A`, its only child takes its place. -/
theorem marks_of_parseTokens_halfMarked : ∃ g tree last, Grammar.parse halfMarked {} = .ok g ∧
    g.parseTokens (halfMarkedTokens "a") = some (.ok tree, last) ∧
      tree.text = "S\n  a \"a\"\n  x \"x\"\n" ∧
      ∀ name multiChild child, Below (.rule name multiChild [child]) tree → multiChild = false := by
  obtain ⟨g, hparse, hanswer⟩ := exists_parse_and readBlocks_halfMarked (fun g =>
    ((g.parseTokens (halfMarkedTokens "a")).bind (·.1.toOption)).any (fun tree =>
      tree.text = "S\n  a \"a\"\n  x \"x\"\n") = true)
    (by decide +kernel)
  obtain ⟨tree, last, hresult, htext⟩ := exists_ok_of_any hanswer
  obtain ⟨blocks, -, -, -, hsingle, -⟩ := marks_of_parseTokens hparse hresult
  exact ⟨g, tree, last, hparse, hresult, of_decide_eq_true htext, hsingle⟩

/-- It is not so that a mark on one block of a rule counts for all: with the other block of `A`, its node
is kept with its only child. -/
theorem not_forall_marked_of_exists_block :
    ¬ ∀ (text : String) (config : Config) (g : Grammar) (blocks : List Block)
        (stream last : TokenTape) (tree : Node) (name : String),
      Grammar.parse text config = .ok g → readBlocks text = .ok blocks →
      (∃ b ∈ blocks, b.name = name ∧ b.multiChild = true) →
      g.parseTokens stream = some (.ok tree, last) →
      ∀ multiChild child, ¬ Below (.rule name multiChild [child]) tree := by
  intro h
  obtain ⟨g, hparse, hanswer⟩ := exists_parse_and readBlocks_halfMarked (fun g =>
    ((g.parseTokens (halfMarkedTokens "b")).bind (·.1.toOption)).any (fun tree =>
      tree.children.any fun child => child.name = "A" ∧ child.children.length = 1) = true)
    (by decide +kernel)
  obtain ⟨tree, last, hresult, htree⟩ := exists_ok_of_any hanswer
  obtain ⟨node, hnode, hshape⟩ := List.any_eq_true.1 htree
  obtain ⟨hname, hlength⟩ := of_decide_eq_true hshape
  obtain ⟨child, hchild⟩ := List.length_eq_one_iff.1 hlength
  cases node with
  | leaf name lexeme => cases hchild
  | rule name multiChild children =>
    cases hname
    cases hchild
    exact h _ _ _ _ _ _ _ "A" hparse readBlocks_halfMarked
      ⟨halfMarkedBlocks[1], List.getElem_mem _, rfl, rfl⟩ hresult _ _ (.child hnode)

end Grammar

end Predictive
