import Predictive.Proofs.Expansion
import Predictive.Proofs.Parsing

/-!
# The shape of parse trees

The machine opens a node for each rule that is written and puts the task of closing it on the stack,
so until the root is closed there are as many such tasks as open nodes (`Parse.Closes`). When a node is
closed inside another, it is only kept if it has children, and more than one if it is marked; what is
below an open node stays as it is (`Parse.Nested`). Every step preserves this (`Parse.Shape.step`), and
so does the end of the input, which can come with nodes that are still open. So a parse that ends gives a
tree in normal form or tells why there is none (`Grammar.parseTokens_normalForm`).
-/

namespace Predictive

/-! ## Normal form -/

namespace Grammar.RuleSet

/-- A rule of this name has an alternative that is not one of a sub-rule. -/
def Opens (g : RuleSet) (name : String) : Prop :=
  ∃ a ∈ g.alternatives, a.2.name = name ∧ a.2.subrule = false

/-- The name is that of a rule that is written, and of no sub-rule. -/
structure Writes (g : RuleSet) (name : String) : Prop where
  opens : g.Opens name
  only (a : Nat × Alternative Symbol) (ha : a ∈ g.alternatives) (hname : a.2.name = name) :
    a.2.subrule = false
  ne_subruleName (owner : String) (number : Nat) : name ≠ subruleName owner number

end Grammar.RuleSet

namespace Node

/-- The node stands in the tree, below the root. -/
inductive Below (node : Node) : Node → Prop
  | child {tree : Node} : node ∈ tree.children → Below node tree
  | deeper {child tree : Node} : Below node child → child ∈ tree.children → Below node tree

/-- The root is made for the start rule, and rule nodes for rules that are written. Below the root, they
have children, and those that are marked have at least two. -/
structure NormalForm (g : Grammar.RuleSet) (tree : Node) : Prop where
  root : ∃ multiChild children, tree = .rule (g.ruleName 0) multiChild children
  writes (name : String) (multiChild : Bool) (children : List Node)
    (h : .rule name multiChild children = tree ∨ Below (.rule name multiChild children) tree) :
    g.Writes name
  children_ne_nil (name : String) (multiChild : Bool) (children : List Node)
    (h : Below (.rule name multiChild children) tree) : children ≠ []
  two_le_length (name : String) (children : List Node) (h : Below (.rule name true children) tree) :
    2 ≤ children.length

/-- A node that can stand below the root, with all that is below it. -/
inductive Kept (g : Grammar.RuleSet) : Node → Prop
  | leaf (name lexeme : String) : Kept g (.leaf name lexeme)
  | rule {name : String} {multiChild : Bool} {children : List Node} : g.Opens name → children ≠ [] →
      (multiChild = true → 2 ≤ children.length) → (∀ child ∈ children, Kept g child) →
      Kept g (.rule name multiChild children)

/-- A root, with all that is below it. -/
inductive Rooted (g : Grammar.RuleSet) : Node → Prop
  | rule {multiChild : Bool} {children : List Node} : g.Opens (g.ruleName 0) →
      (∀ child ∈ children, Kept g child) → Rooted g (.rule (g.ruleName 0) multiChild children)

variable {g : Grammar.RuleSet} {node tree : Node}

theorem Kept.children (h : Kept g tree) : ∀ child ∈ tree.children, Kept g child := by
  cases h with
  | leaf => exact fun _ hchild => absurd hchild List.not_mem_nil
  | rule _ _ _ hchildren => exact hchildren

theorem Below.kept (h : Below node tree) (hchildren : ∀ child ∈ tree.children, Kept g child) :
    Kept g node := by
  induction h with
  | child hmem => exact hchildren _ hmem
  | deeper _ hmem ih => exact ih (hchildren _ hmem).children

theorem Rooted.normalForm (h : Rooted g tree) (hg : ∀ name, g.Opens name → g.Writes name) :
    tree.NormalForm g := by
  obtain ⟨hname, hchildren⟩ := h
  refine {
    root := ⟨_, _, rfl⟩
    writes := fun name multiChild children hnode => hg name ?_
    children_ne_nil := fun name multiChild children hbelow => ?_
    two_le_length := fun name children hbelow => ?_ }
  · rcases hnode with heq | hbelow
    · cases heq
      exact hname
    · cases hbelow.kept hchildren with
      | rule hname _ _ _ => exact hname
  · cases hbelow.kept hchildren with
    | rule _ hne _ _ => exact hne
  · cases hbelow.kept hchildren with
    | rule _ _ hlength _ => exact hlength rfl

end Node

open Node (Kept Rooted)

namespace Parse

section

variable {g : Grammar.RuleSet}

/-! ## Open nodes -/

/-- The children of an open node can stand below the root. -/
structure OpenNode.Sound (g : Grammar.RuleSet) (node : OpenNode) : Prop where
  opens : g.Opens node.name
  children : ∀ child ∈ node.children, Kept g child

namespace OpenNode.Sound

variable {node : OpenNode}

theorem add (h : node.Sound g) {child : Node} (hchild : Kept g child) : (node.add child).Sound g where
  opens := h.opens
  children := List.forall_mem_cons.2 ⟨hchild, h.children⟩

theorem kept (h : node.Sound g) (hne : node.children ≠ [])
    (hlength : node.multiChild = true → 2 ≤ node.children.length) : Kept g node.close := by
  refine .rule h.opens (by simpa using hne) (by simpa using hlength) fun child hchild => ?_
  exact h.children child (List.mem_reverse.1 hchild)

theorem rooted (h : node.Sound g) (hname : node.name = g.ruleName 0) : Rooted g node.close := by
  rw [OpenNode.close, hname]
  exact .rule (hname ▸ h.opens) fun child hchild => h.children child (List.mem_reverse.1 hchild)

end OpenNode.Sound

/-- There are open nodes, and the outermost is the root. -/
structure Nested (g : Grammar.RuleSet) (nodes : List OpenNode) : Prop where
  sound : ∀ node ∈ nodes, node.Sound g
  outermost : (nodes.map (·.name)).getLast? = some (g.ruleName 0)

namespace Nested

variable {node node' parent : OpenNode} {outer : List OpenNode} {m : Machine}

theorem length_ne_zero {nodes : List OpenNode} (h : Nested g nodes) : nodes.length ≠ 0 := by
  intro hlength
  rw [List.length_eq_zero_iff.1 hlength] at h
  cases h.outermost

theorem tail (h : Nested g (node :: parent :: outer)) : Nested g (parent :: outer) where
  sound node hnode := h.sound node (List.mem_cons_of_mem _ hnode)
  outermost := h.outermost

/-- The innermost node may change, but not its name. -/
theorem replace (h : Nested g (node :: outer)) (hname : node'.name = node.name)
    (hsound : node'.Sound g) : Nested g (node' :: outer) where
  sound := List.forall_mem_cons.2 ⟨hsound, (List.forall_mem_cons.1 h.sound).2⟩
  outermost := by
    rw [List.map_cons, hname]
    exact h.outermost

theorem push (h : Nested g outer) (hsound : node.Sound g) : Nested g (node :: outer) where
  sound := List.forall_mem_cons.2 ⟨hsound, h.sound⟩
  outermost := by
    rw [List.map_cons, List.getLast?_cons, h.outermost]
    rfl

theorem add (h : Nested g (node :: outer)) {child : Node} (hchild : Kept g child) :
    Nested g (node.add child :: outer) :=
  h.replace rfl ((h.sound node List.mem_cons_self).add hchild)

/-- When the innermost node is closed, it is the root, or the others are open as before. -/
theorem closeNode (h : Nested g m.nodes) :
    (m.nodes.length = 1 ∧ m.closeNode.nodes = [] ∧
      ∃ tree, m.closeNode.root = some tree ∧ Rooted g tree) ∨
    (m.nodes.length = m.closeNode.nodes.length + 1 ∧ Nested g m.closeNode.nodes) := by
  obtain ⟨stack, nodes, closed⟩ := m
  match nodes with
  | [] => cases h.outermost
  | [node] =>
    have hname := Option.some.inj h.outermost
    exact .inl ⟨rfl, rfl, _, rfl, (h.sound node List.mem_cons_self).rooted hname⟩
  | node :: parent :: outer =>
    refine .inr ?_
    have hnode := h.sound node List.mem_cons_self
    rcases Machine.closeNode_cases stack node parent outer closed with
      ⟨-, heq⟩ | ⟨child, hone, -, heq⟩ | ⟨hne, hlength, heq⟩
    · rw [heq]
      exact ⟨rfl, h.tail⟩
    · rw [heq]
      exact ⟨rfl, h.tail.add (hnode.children child (by simp [hone]))⟩
    · rw [heq]
      exact ⟨rfl, h.tail.add (hnode.kept hne hlength)⟩

/-- Closing all open nodes closes the root. -/
theorem exists_root (h : Nested g m.nodes) :
    ∃ tree, (m.closeNodes m.nodes.length).root = some tree ∧ Rooted g tree := by
  induction hlength : m.nodes.length generalizing m with
  | zero => exact absurd hlength h.length_ne_zero
  | succ n ih =>
    show ∃ tree, (m.closeNode.closeNodes n).root = some tree ∧ Rooted g tree
    rcases h.closeNode with ⟨hone, -, hroot⟩ | ⟨hrest, hnested⟩
    · obtain rfl : n = 0 := Nat.succ.inj (hlength.symm.trans hone)
      exact hroot
    · exact ih hnested (Nat.succ.inj (hrest.symm.trans hlength))

end Nested

end

/-! ## Tasks -/

/-- The stack has as many tasks of closing a node as are open, the last one just before the end of the
input is expected. -/
inductive Closes (g : Grammar) : List Task → Nat → Prop
  | nil : Closes g [.expect g.eof] 0
  | close {stack : List Task} {n : Nat} : Closes g stack n → Closes g (.close :: stack) (n + 1)
  | expect {stack : List Task} {n : Nat} (s : Grammar.Symbol) : n ≠ 0 → Closes g stack n →
      Closes g (.expect s :: stack) n

theorem Closes.tasks {g : Grammar} {stack : List Task} {n : Nat} (h : Closes g stack n) (hn : n ≠ 0)
    (ss : List Grammar.Symbol) : Closes g (tasks ss ++ stack) n := by
  induction ss with
  | nil => exact h
  | cons s ss ih =>
    cases s with
    | empty => simpa using ih
    | terminal name id => simpa using ih.expect _ hn
    | rule name id => simpa using ih.expect _ hn

/-! ## Steps -/

/-- How the machine stands: at the start, with open nodes and as many tasks of closing them, or with the
root closed. -/
inductive Shape (g : Grammar) : Machine → Prop
  | start : Shape g (.start g)
  | opened {m : Machine} : Closes g m.stack m.nodes.length → Nested g.toRuleSet m.nodes → Shape g m
  | closed {m : Machine} {tree : Node} : m.stack = [.expect g.eof] → m.nodes = [] →
      m.root = some tree → Rooted g.toRuleSet tree → Shape g m

/-- The result is a tree as it should be, or an error that tells why there is none. -/
def Shaped (g : Grammar) : Except ParseError Node → Prop
  | .ok tree => Rooted g.toRuleSet tree
  | .error e => e ≠ .noTree

/-- What a step leads to has the shape that it should have. -/
def Outcome (g : Grammar) : Machine ⊕ Halt → Prop
  | .inl m | .inr (.read m) => Shape g m
  | .inr (.accept m) => Shaped g m.result
  | .inr (.fail e) => e ≠ .noTree

variable {g : Grammar} {m final : Machine} {t : Token} {a : Grammar.Alternative Grammar.Symbol}

theorem Nested.shaped (h : Nested g.toRuleSet m.nodes) : Shaped g m.result := by
  obtain ⟨tree, hroot, hrooted⟩ := h.exists_root
  unfold Machine.result
  rw [hroot]
  exact hrooted

theorem sound_ofAlternative {k : Nat} (ha : (k, a) ∈ g.alternatives) (hsub : a.subrule = false) :
    (OpenNode.ofAlternative a).Sound g.toRuleSet where
  opens := ⟨_, ha, rfl, hsub⟩
  children _ hchild := absurd hchild List.not_mem_nil

namespace Shape

variable {stack : List Task} {nodes : List OpenNode} {root : Option Node}

/-- The innermost node is closed. -/
theorem closeNode {n : Nat} (hstack : Closes g stack n) (hlength : nodes.length = n + 1)
    (h : Nested g.toRuleSet nodes) :
    Shape g (Machine.closeNode { stack, nodes, root }) := by
  have hsame := stack_closeNode { stack, nodes, root }
  rcases Nested.closeNode (m := { stack, nodes, root }) h with
    ⟨hone, hnodes, tree, hroot, hrooted⟩ | ⟨hrest, hnested⟩
  · obtain rfl : n = 0 := Nat.succ.inj (hlength.symm.trans hone)
    cases hstack with
    | nil => exact .closed hsame hnodes hroot hrooted
    | expect s hne => exact absurd rfl hne
  · refine .opened ?_ hnested
    rw [hsame, ← Nat.succ.inj (hlength.symm.trans hrest)]
    exact hstack

/-- A rule is replaced by an alternative of it. -/
theorem expand {k : Nat} (hstack : Closes g stack nodes.length)
    (h : Nested g.toRuleSet nodes) (ha : (k, a) ∈ g.alternatives) :
    Shape g (Machine.expand { stack, nodes, root } a) := by
  cases hsub : a.subrule with
  | true =>
    rw [Machine.expand_of_subrule hsub]
    exact .opened (hstack.tasks h.length_ne_zero _) h
  | false =>
    rw [Machine.expand_of_not_subrule hsub]
    have hpush := h.push (sound_ofAlternative ha hsub)
    exact .opened (hstack.close.tasks hpush.length_ne_zero _) hpush

/-- The start rule is replaced by an alternative of it. -/
theorem expand_start {k : Nat} (ha : (k, a) ∈ g.alternatives) (hsub : a.subrule = false)
    (hname : a.name = g.ruleName 0) :
    Shape g (Machine.expand { stack := [.expect g.eof] } a) := by
  rw [Machine.expand_of_not_subrule hsub]
  have hnested : Nested g.toRuleSet [.ofAlternative a] :=
    ⟨List.forall_mem_singleton.2 (sound_ofAlternative ha hsub), congrArg some hname⟩
  exact .opened (Closes.nil.close.tasks hnested.length_ne_zero _) hnested

section

variable (hg : g.Compiled) (hr : g.Resolved)

include hg hr

/-- A machine with open nodes finds a symbol. -/
theorem outcome_expect (hstack : Closes g stack nodes.length)
    (h : Nested g.toRuleSet nodes) (s : Grammar.Symbol) (t : Token) :
    Outcome g (Machine.step g t { stack := .expect s :: stack, nodes, root }) := by
  cases s with
  | empty => exact .opened hstack h
  | terminal name id =>
    unfold Machine.step
    dsimp only
    split
    · exact nofun
    · split
      · exact h.shaped
      · match nodes with
        | node :: outer => exact .opened hstack (h.add (.leaf t.name t.lexeme))
        | [] => cases h.outermost
  | rule name id =>
    unfold Machine.step
    dsimp only
    split
    · next a hchoice =>
      obtain ⟨k, ha⟩ := hg.exists_mem_of_choice hr hchoice
      exact expand hstack h (Grammar.RuleSet.mem_alternatives_of_mem_alternativesOf ha)
    · exact nofun

variable
  (hstart : ∀ {k a}, (k, a) ∈ g.alternativesOf 0 → a.subrule = false ∧ a.name = g.ruleName 0)

include hstart

/-- What one step keeps: nodes are opened with the task of closing them, and what is closed is kept. -/
theorem step (h : Shape g m) (t : Token) : Outcome g (m.step g t) := by
  cases h with
  | start =>
    unfold Machine.step Machine.start Grammar.RuleSet.start
    dsimp only
    split
    · next a hchoice =>
      obtain ⟨k, ha⟩ := hg.exists_mem_of_choice hr hchoice
      obtain ⟨hsub, hname⟩ := hstart ha
      exact expand_start (Grammar.RuleSet.mem_alternatives_of_mem_alternativesOf ha) hsub hname
    · exact nofun
  | opened hstack hnested =>
    obtain ⟨stack, nodes, root⟩ := m
    generalize hlength : nodes.length = n at hstack
    cases hstack with
    | nil => exact absurd hlength hnested.length_ne_zero
    | close hstack => exact closeNode hstack hlength hnested
    | expect s _ hstack => exact outcome_expect hg hr (hlength ▸ hstack) hnested s t
  | closed hstack hnodes hroot hrooted =>
    obtain ⟨stack, nodes, root⟩ := m
    subst hstack hnodes hroot
    unfold Machine.step Grammar.RuleSet.eof
    dsimp only
    split
    · exact nofun
    · exact hrooted

theorem settle (h : Shape g m) {steps : Nat} {halt : Halt} (hsettle : m.settle g t steps = some halt) :
    Outcome g (.inr halt) := by
  induction steps generalizing m with
  | zero => cases hsettle
  | succ steps ih =>
    have hstep := h.step hg hr hstart t
    unfold Machine.settle at hsettle
    split at hsettle
    · next next heq =>
      rw [heq] at hstep
      exact ih hstep hsettle
    · next halt' heq =>
      cases hsettle
      rwa [heq] at hstep

/-- What a run keeps, from one read to the next. -/
theorem readsTo (h : Shape g m) {u : List Token} (hreads : ReadsTo g final m u) : Shape g final := by
  induction hreads with
  | refl => exact h
  | read hsettle _ ih => exact ih (h.settle hg hr hstart hsettle)

/-- A run that is done has a result with the shape that it should have. -/
theorem shaped_of_run {σ : Type} [TokenStream σ] {before stream last : σ}
    {taskBound rounds : Nat} {result : Except ParseError Node}
    (hnext : TokenStream.next before = (.ok t, stream))
    (hrun : run g taskBound rounds (.start g) t stream = .done result last) : Shaped g result := by
  rcases run_cases hnext hrun with ⟨e, rfl⟩ | ⟨u, found, final, halt, steps, hreads, -, hsettle, hhalt⟩
  · exact nofun
  · have houtcome := (start.readsTo hg hr hstart hreads).settle hg hr hstart hsettle
    cases halt with
    | read next => cases hhalt
    | accept m =>
      cases hhalt
      exact houtcome
    | fail e =>
      cases hhalt
      exact houtcome

end

end Shape

end Parse

/-! ## Compiled grammars -/

namespace Grammar

variable {text : String} {config : Config} {rules : RuleSet} {g : Grammar}

theorem writes_of_opens (h : readRules text config = .ok rules) {name : String}
    (hname : rules.Opens name) : rules.Writes name := by
  obtain ⟨⟨k, a⟩, ha, rfl, hsub⟩ := hname
  obtain ⟨r, hr⟩ := RuleSet.exists_mem_alternativesOf ha
  have hplain : ¬ Braced a.name := fun hbraced =>
    Bool.false_ne_true (hsub.symm.trans ((name_and_subrule_of_readRules h hr).2.2 hbraced))
  refine ⟨⟨_, ha, rfl, hsub⟩, fun ⟨l, b⟩ hb hname => ?_, fun owner number heq => hplain ?_⟩
  · obtain ⟨r', hr'⟩ := RuleSet.exists_mem_alternativesOf hb
    refine Bool.eq_false_iff.2 fun hsub' => hplain ?_
    exact hname ▸ (name_and_subrule_of_readRules h hr').2.1 hsub'
  · rw [heq]
    exact braced_subruleName owner number

/-- The result of a parse is a tree in normal form, or an error that tells why there is none. -/
def Normal (g : Grammar) (result : Except ParseError Node) : Prop :=
  result ≠ .error .noTree ∧ ∀ tree, result = .ok tree → tree.NormalForm g.toRuleSet

theorem normal_of_shaped (h : Grammar.parse text config = .ok g) {result : Except ParseError Node}
    (hresult : Parse.Shaped g result) : g.Normal result := by
  obtain ⟨-, hrules⟩ := compiled_of_parse h
  cases result with
  | error e => exact ⟨fun heq => hresult (Except.error.inj heq), nofun⟩
  | ok tree =>
    refine ⟨nofun, ?_⟩
    rintro _ ⟨⟩
    exact hresult.normalForm fun name => writes_of_opens hrules

variable {σ : Type} [TokenStream σ]

/-- For every grammar that compiles, also if right-hand sides name the end of the input, and for every
stream: a parse that ends gives a tree in normal form or tells why there is none. This goes for any
number of rounds, so for streams that give more tokens than they announce, too. -/
theorem parseTokens_normalForm (h : Grammar.parse text config = .ok g) (stream : σ) :
    (∀ t next, TokenStream.next stream = (.ok t, next) → ∀ rounds result last,
      Parse.run g (Parse.Machine.taskBound g) rounds (.start g) t next = .done result last →
        g.Normal result) ∧
    ∀ result last, g.parseTokens stream = some (result, last) → g.Normal result := by
  obtain ⟨hcompiled, hrules⟩ := compiled_of_parse h
  have hrun (t : Token) (next : σ) (hnext : TokenStream.next stream = (.ok t, next)) (rounds : Nat)
      (result : Except ParseError Node) (last : σ)
      (hrun : Parse.run g (Parse.Machine.taskBound g) rounds (.start g) t next = .done result last) :
      g.Normal result := by
    have hresolved := resolved_of_readRules hrules
    refine normal_of_shaped h (Parse.Shape.shaped_of_run hcompiled hresolved ?_ hnext hrun)
    exact fun ha => ⟨start_kept_of_readRules hrules ha, (name_and_subrule_of_readRules hrules ha).1⟩
  refine ⟨hrun, fun result last hparse => ?_⟩
  rcases exists_run_of_parseTokens hparse with ⟨e, rfl⟩ | ⟨t, next, rounds, hnext, hdone⟩
  · exact ⟨nofun, nofun⟩
  · exact hrun t next hnext rounds result last hdone

/-- The second rule names the end of the input, and more after it. -/
def cutShort : String := "S -> num L\nL -> M eof num [>1]\nM -> plus?"

/-- The blocks of `cutShort`. -/
def cutShortBlocks : List Block :=
  [{ name := "S"
     body := .concat (.name "num") (.name "L")
     multiChild := false
     line := 1 },
   { name := "L"
     body := .concat (.concat (.name "M") (.name "eof")) (.name "num")
     multiChild := true
     line := 2 },
   { name := "M"
     body := .optional (.name "plus")
     multiChild := false
     line := 3 }]

set_option maxRecDepth 4000 in
theorem readBlocks_cutShort : readBlocks cutShort = .ok cutShortBlocks :=
  readBlocks_of_exists ⟨_, rfl, by decide +kernel⟩

/-- The input ends when `L` is open. It has one child and is marked, so the child takes its place. -/
theorem parseTokens_normalForm_cutShort : ∃ g tree last, Grammar.parse cutShort {} = .ok g ∧
    g.parseTokens (TokenTape.ofTokens (sumTokens.take 2) {}) = some (.ok tree, last) ∧
      tree.text = "S\n  num \"1\"\n  M\n    plus \"+\"\n" ∧ tree.NormalForm g.toRuleSet := by
  obtain ⟨g, hparse, hanswer⟩ := exists_parse_and readBlocks_cutShort (fun g =>
    (g.parseTokens (TokenTape.ofTokens (sumTokens.take 2) {})).bind (fun answer =>
      answer.1.toOption.map Node.text) = some "S\n  num \"1\"\n  M\n    plus \"+\"\n")
    (by decide +kernel)
  obtain ⟨⟨result, last⟩, hresult, htree⟩ := Option.bind_eq_some_iff.1 hanswer
  obtain ⟨tree, hok, htext⟩ := Option.map_eq_some_iff.1 htree
  obtain rfl : result = .ok tree := by
    cases result with
    | error e => cases hok
    | ok node => exact congrArg _ (Option.some.inj hok)
  obtain ⟨-, hnormal⟩ := parseTokens_normalForm hparse (TokenTape.ofTokens (sumTokens.take 2) {})
  exact ⟨g, tree, last, hparse, hresult, htext, (hnormal _ _ hresult).2 tree rfl⟩

end Grammar

end Predictive
