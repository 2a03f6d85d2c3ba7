import Predictive.Proofs.Marks
import Predictive.Proofs.Quoting
import Predictive.Proofs.Terminals
import Predictive.Proofs.VocabularyScan

/-!
# Listings of trees

A listing has a line for each node: its depth as blanks, its name, and the lexeme of a leaf in quotes.
The depths tell how the nodes are nested (`Node.entries_append_inj`), and a line tells its node if the
name holds no blank and no line break (`Node.text_eq_iff`). The names in grammar texts are such names,
and so are those of the sub-rules made for them (`Grammar.named_of_parse`). So the listing of a tree
that is parsed shows all of it but the marks of its rules (`Grammar.text_eq_iff_of_returns`).
-/

namespace Predictive

namespace Node

/-! ## Trees without marks -/

mutual

/-- The tree without the marks of its rules. -/
def unmarked : Node → Node
  | leaf name lexeme => leaf name lexeme
  | rule name _ children => rule name false (unmarkedOf children)

/-- The trees without the marks of their rules. -/
def unmarkedOf : List Node → List Node
  | [] => []
  | n :: ns => n.unmarked :: unmarkedOf ns

end

/-- The entry without its mark. -/
def Entry.unmarked (e : Entry) : Entry := { e with multiChild := false }

mutual

theorem entries_unmarked (n : Node) (depth : Nat) :
    n.unmarked.entries depth = (n.entries depth).map Entry.unmarked := by
  cases n with
  | leaf name lexeme => rfl
  | rule name multiChild children =>
    exact congrArg (List.cons _) (entriesOf_unmarkedOf children (depth + 1))

theorem entriesOf_unmarkedOf (ns : List Node) (depth : Nat) :
    entriesOf depth (unmarkedOf ns) = (entriesOf depth ns).map Entry.unmarked := by
  cases ns with
  | nil => rfl
  | cons n ns =>
    rw [unmarkedOf, entriesOf, entriesOf, List.map_append, entries_unmarked n, entriesOf_unmarkedOf ns]

end

/-! ## From entries to trees -/

theorem exists_entries_eq_cons (n : Node) (depth : Nat) :
    ∃ e es, n.entries depth = e :: es ∧ e.depth = depth := by
  cases n with
  | leaf name lexeme => exact ⟨_, _, rfl, rfl⟩
  | rule name multiChild children => exact ⟨_, _, rfl, rfl⟩

/-- After the entries of one tree there follow those of others or what comes after them, nothing
deeper. -/
theorem depth_le_of_mem_head? {ns : List Node} {depth : Nat} {rest : List Entry}
    (hrest : ∀ e ∈ rest.head?, e.depth < depth) :
    ∀ e ∈ (entriesOf depth ns ++ rest).head?, e.depth ≤ depth := by
  intro e he
  cases ns with
  | nil => exact Nat.le_of_lt (hrest e he)
  | cons n ns =>
    obtain ⟨first, es, hes, rfl⟩ := exists_entries_eq_cons n depth
    rw [entriesOf, hes] at he
    obtain rfl := Option.some.inj he
    exact Nat.le_refl _

theorem entries_append_ne_of_depth_lt (n : Node) {depth : Nat} {es rest : List Entry}
    (hrest : ∀ e ∈ rest.head?, e.depth < depth) : n.entries depth ++ es ≠ rest := by
  rintro rfl
  obtain ⟨first, more, hes, rfl⟩ := exists_entries_eq_cons n depth
  exact Nat.lt_irrefl _ (hrest first (by rw [hes]; rfl))

mutual

/-- The entries of a tree tell it, and where they end, if nothing deeper than its root follows. -/
theorem entries_append_inj (n n' : Node) {depth : Nat} {rest rest' : List Entry}
    (h : n.entries depth ++ rest = n'.entries depth ++ rest')
    (hrest : ∀ e ∈ rest.head?, e.depth ≤ depth) (hrest' : ∀ e ∈ rest'.head?, e.depth ≤ depth) :
    n = n' ∧ rest = rest' := by
  cases n with
  | leaf name lexeme =>
    cases n' with
    | leaf name' lexeme' =>
      obtain ⟨hentry, rfl⟩ := List.cons.inj h
      cases hentry
      exact ⟨rfl, rfl⟩
    | rule name' multiChild' children' => cases (List.cons.inj h).1
  | rule name multiChild children =>
    cases n' with
    | leaf name' lexeme' => cases (List.cons.inj h).1
    | rule name' multiChild' children' =>
      obtain ⟨hentry, hchildren⟩ := List.cons.inj h
      cases hentry
      obtain ⟨rfl, hrests⟩ := entriesOf_append_inj children children' hchildren
        (fun e he => Nat.lt_succ_of_le (hrest e he)) fun e he => Nat.lt_succ_of_le (hrest' e he)
      exact ⟨rfl, hrests⟩

theorem entriesOf_append_inj (ns ns' : List Node) {depth : Nat} {rest rest' : List Entry}
    (h : entriesOf depth ns ++ rest = entriesOf depth ns' ++ rest')
    (hrest : ∀ e ∈ rest.head?, e.depth < depth) (hrest' : ∀ e ∈ rest'.head?, e.depth < depth) :
    ns = ns' ∧ rest = rest' := by
  cases ns with
  | nil =>
    cases ns' with
    | nil => exact ⟨rfl, h⟩
    | cons n' ns' =>
      rw [entriesOf, entriesOf, List.append_assoc] at h
      exact absurd h.symm (entries_append_ne_of_depth_lt n' hrest)
  | cons n ns =>
    cases ns' with
    | nil =>
      rw [entriesOf, entriesOf, List.append_assoc] at h
      exact absurd h (entries_append_ne_of_depth_lt n hrest')
    | cons n' ns' =>
      rw [entriesOf, entriesOf, List.append_assoc, List.append_assoc] at h
      obtain ⟨rfl, hmore⟩ := entries_append_inj n n' h (depth_le_of_mem_head? hrest)
        (depth_le_of_mem_head? hrest')
      obtain ⟨rfl, hrests⟩ := entriesOf_append_inj ns ns' hmore hrest hrest'
      exact ⟨rfl, hrests⟩

end

/-! ## From lines to entries -/

/-- A name that can be told from what stands around it in a listing. -/
def Plain (name : String) : Prop := name ≠ "" ∧ ∀ c ∈ name.toList, c ≠ ' ' ∧ c ≠ '\n'

/-- What stands in the line of an entry after its name. -/
def Entry.valueText (e : Entry) : List Char :=
  match e.value with
  | some lexeme => ' ' :: (Text.quoted lexeme).toList
  | none => []

theorem Entry.toList_text (e : Entry) :
    e.text.toList = List.replicate (2 * e.depth) ' ' ++ (e.name.toList ++ e.valueText) := by
  obtain ⟨depth, name, value, multiChild⟩ := e
  cases value with
  | none => simp [Entry.text, Entry.valueText]
  | some lexeme =>
    simp only [Entry.text, Entry.valueText, String.toList_append, String.toList_ofList,
      List.append_assoc]
    rfl

theorem Entry.feed_notMem_text {e : Entry} (h : Plain e.name) : '\n' ∉ e.text.toList := by
  have hname : '\n' ∉ e.name.toList := fun hmem => (h.2 _ hmem).2 rfl
  have hvalue : '\n' ∉ e.valueText := by
    unfold Entry.valueText
    split
    · exact fun hmem => Text.feed_notMem_quoted _ (List.mem_of_ne_of_mem (by decide) hmem)
    · exact List.not_mem_nil
  rw [Entry.toList_text]
  simp [List.mem_append, hname, hvalue]

theorem replicate_append_inj {m n : Nat} {x y : List Char}
    (h : List.replicate m ' ' ++ x = List.replicate n ' ' ++ y) (hx : x.head? ≠ some ' ')
    (hy : y.head? ≠ some ' ') : m = n ∧ x = y := by
  induction m generalizing n with
  | zero =>
    cases n with
    | zero => exact ⟨rfl, h⟩
    | succ n => exact absurd (congrArg List.head? h) hx
  | succ m ih =>
    cases n with
    | zero => exact absurd (congrArg List.head? h).symm hy
    | succ n =>
      obtain ⟨rfl, rfl⟩ := ih (List.cons.inj h).2
      exact ⟨rfl, rfl⟩

theorem Plain.head?_ne {name : String} (h : Plain name) (x : List Char) :
    (name.toList ++ x).head? ≠ some ' ' := by
  obtain ⟨c, cs, hname⟩ := List.exists_cons_of_ne_nil (mt String.toList_eq_nil_iff.1 h.1)
  rw [hname]
  exact fun hc => (h.2 c (hname ▸ List.mem_cons_self)).1 (Option.some.inj hc)

theorem Plain.blank_notMem {name : String} (h : Plain name) : ' ' ∉ name.toList :=
  fun hmem => (h.2 _ hmem).1 rfl

/-- After a name there is nothing, or a blank and a quoted text. -/
theorem name_append_valueText_inj {e e' : Entry} (h : Plain e.name) (h' : Plain e'.name)
    (heq : e.name.toList ++ e.valueText = e'.name.toList ++ e'.valueText) :
    e.name = e'.name ∧ e.value = e'.value := by
  have hblank := h.blank_notMem
  have hblank' := h'.blank_notMem
  obtain ⟨depth, name, value, multiChild⟩ := e
  obtain ⟨depth', name', value', multiChild'⟩ := e'
  dsimp only [Entry.valueText] at heq hblank hblank' ⊢
  cases value with
  | none =>
    cases value' with
    | none =>
      rw [List.append_nil, List.append_nil] at heq
      exact ⟨String.toList_injective heq, rfl⟩
    | some lexeme' =>
      rw [List.append_nil] at heq
      exact absurd (heq ▸ List.mem_append_right _ List.mem_cons_self) hblank
  | some lexeme =>
    cases value' with
    | none =>
      rw [List.append_nil] at heq
      exact absurd (heq ▸ List.mem_append_right _ List.mem_cons_self) hblank'
    | some lexeme' =>
      obtain ⟨hname, hvalue⟩ := Text.append_cons_inj_of_notMem hblank hblank' heq
      exact ⟨String.toList_injective hname,
        congrArg some (Text.quoted_injective (String.toList_injective hvalue))⟩

/-- A line tells its entry, but for the mark. -/
theorem Entry.unmarked_eq_of_text_eq {e e' : Entry} (h : Plain e.name) (h' : Plain e'.name)
    (heq : e.text = e'.text) : e.unmarked = e'.unmarked := by
  have hlist := congrArg String.toList heq
  rw [toList_text, toList_text] at hlist
  obtain ⟨hdepth, hrest⟩ := replicate_append_inj hlist (h.head?_ne _) (h'.head?_ne _)
  obtain ⟨hname, hvalue⟩ := name_append_valueText_inj h h' hrest
  obtain ⟨depth, name, value, multiChild⟩ := e
  obtain ⟨depth', name', value', multiChild'⟩ := e'
  obtain rfl : depth = depth' := by
    dsimp only at hdepth
    omega
  obtain rfl : name = name' := hname
  obtain rfl : value = value' := hvalue
  rfl

/-- Lines tell their entries, but for the marks. -/
theorem map_unmarked_eq_of_unlines_eq {es es' : List Entry} (h : ∀ e ∈ es, Plain e.name)
    (h' : ∀ e ∈ es', Plain e.name)
    (heq : Text.unlines (es.map Entry.text) = Text.unlines (es'.map Entry.text)) :
    es.map Entry.unmarked = es'.map Entry.unmarked := by
  have hlist := congrArg String.toList heq
  rw [Text.toList_unlines, Text.toList_unlines, List.flatMap_map, List.flatMap_map] at hlist
  clear heq
  induction es generalizing es' with
  | nil =>
    cases es' with
    | nil => rfl
    | cons e' es' => simp at hlist
  | cons e es ih =>
    cases es' with
    | nil => simp at hlist
    | cons e' es' =>
      obtain ⟨he, hes⟩ := List.forall_mem_cons.1 h
      obtain ⟨he', hes'⟩ := List.forall_mem_cons.1 h'
      rw [List.flatMap_cons, List.flatMap_cons, List.append_assoc, List.append_assoc] at hlist
      obtain ⟨hline, hrest⟩ := Text.append_cons_inj_of_notMem (Entry.feed_notMem_text he)
        (Entry.feed_notMem_text he') hlist
      rw [List.map_cons, List.map_cons, ih hes hes' hrest,
        Entry.unmarked_eq_of_text_eq he he' (String.toList_injective hline)]

/-! ## Trees with plain names -/

/-- Every node of the tree has a name with the property. -/
inductive Named (P : String → Prop) : Node → Prop
  | leaf {name : String} (lexeme : String) : P name → Named P (.leaf name lexeme)
  | rule {name : String} (multiChild : Bool) {children : List Node} : P name →
      (∀ child ∈ children, Named P child) → Named P (.rule name multiChild children)

variable {P : String → Prop}

theorem Named.children {n : Node} (h : n.Named P) : ∀ child ∈ n.children, child.Named P := by
  cases h with
  | leaf => exact fun _ hchild => absurd hchild List.not_mem_nil
  | rule _ _ hchildren => exact hchildren

mutual

theorem name_of_mem_entries (n : Node) (h : n.Named P) (depth : Nat) :
    ∀ e ∈ n.entries depth, P e.name := by
  cases n with
  | leaf name lexeme =>
    cases h with
    | leaf _ hname => exact List.forall_mem_singleton.2 hname
  | rule name multiChild children =>
    cases h with
    | rule _ hname hchildren =>
      exact List.forall_mem_cons.2 ⟨hname, name_of_mem_entriesOf children hchildren (depth + 1)⟩

theorem name_of_mem_entriesOf (ns : List Node) (h : ∀ n ∈ ns, n.Named P) (depth : Nat) :
    ∀ e ∈ entriesOf depth ns, P e.name := by
  cases ns with
  | nil => exact fun _ he => absurd he List.not_mem_nil
  | cons n ns =>
    obtain ⟨hn, hns⟩ := List.forall_mem_cons.1 h
    exact List.forall_mem_append.2
      ⟨name_of_mem_entries n hn depth, name_of_mem_entriesOf ns hns depth⟩

end

/-- The listing shows all of a tree with plain names but for the marks. -/
theorem text_eq_iff {n n' : Node} (h : n.Named Plain) (h' : n'.Named Plain) :
    n.text = n'.text ↔ n.unmarked = n'.unmarked := by
  constructor
  · intro heq
    have hentries := map_unmarked_eq_of_unlines_eq (name_of_mem_entries n h 0)
      (name_of_mem_entries n' h' 0) heq
    rw [← entries_unmarked, ← entries_unmarked] at hentries
    have happend : n.unmarked.entries 0 ++ [] = n'.unmarked.entries 0 ++ [] := by rw [hentries]
    exact (entries_append_inj _ _ happend (by simp) (by simp)).1
  · intro heq
    have hentries := congrArg (entries 0) heq
    rw [entries_unmarked, entries_unmarked] at hentries
    have htext (es : List Entry) : es.map Entry.text = (es.map Entry.unmarked).map Entry.text := by
      rw [List.map_map]
      rfl
    rw [text, text, htext, htext (n'.entries 0), hentries]

end Node

/-! ## Names of nodes -/

namespace Grammar.RuleSet

/-- The names that nodes can get have the property: those of alternatives that open nodes, and those
of terminals but the end of the input. -/
structure Named (P : String → Prop) (g : RuleSet) : Prop where
  rule : ∀ p ∈ g.alternatives, p.2.subrule = false → P p.2.name
  terminal : ∀ p ∈ g.alternatives, ∀ name id, .terminal name id ∈ p.2.sequence → P name

end Grammar.RuleSet

namespace Parse.Machine

/-- The nodes have names with the property, and so have the terminals that are expected, but for the
end of the input. -/
structure Named (P : String → Prop) (m : Machine) : Prop where
  stack : ∀ name id, .expect (.terminal name id) ∈ m.stack → id ≠ 0 → P name
  nodes : ∀ node ∈ m.nodes, node.close.Named P
  root : ∀ tree, m.root = some tree → tree.Named P

namespace Named

variable {P : String → Prop} {g : Grammar} {m : Machine} {stack rest : List Task}

theorem start (g : Grammar) : (Machine.start g).Named P where
  stack name id h hid := by
    simp only [Machine.start, Grammar.RuleSet.start, Grammar.RuleSet.eof, List.mem_cons,
      List.not_mem_nil, or_false, Task.expect.injEq, reduceCtorEq, false_or,
      Grammar.Symbol.terminal.injEq] at h
    exact absurd h.2 hid
  nodes _ h := absurd h List.not_mem_nil
  root := nofun

/-- Fewer tasks may be left. -/
theorem drop (h : m.Named P) (hstack : ∀ t ∈ stack, t ∈ m.stack) : Named P { m with stack } :=
  ⟨fun name id hmem => h.stack name id (hstack _ hmem), h.nodes, h.root⟩

theorem add {node : OpenNode} {child : Node} (h : node.close.Named P) (hchild : child.Named P) :
    (node.add child).close.Named P := by
  cases h with
  | rule _ hname hchildren =>
    refine .rule _ hname fun c hc => ?_
    rcases List.mem_cons.1 (List.mem_reverse.1 hc) with rfl | hc
    · exact hchild
    · exact hchildren c (List.mem_reverse.2 hc)

theorem closeNode (h : m.Named P) : m.closeNode.Named P := by
  obtain ⟨stack, nodes, root⟩ := m
  match nodes with
  | [] => exact h
  | [node] =>
    refine ⟨h.stack, fun _ hnode => absurd hnode List.not_mem_nil, ?_⟩
    rintro _ ⟨⟩
    exact h.nodes node List.mem_cons_self
  | node :: parent :: outer =>
    obtain ⟨hnode, hparents⟩ := List.forall_mem_cons.1 h.nodes
    obtain ⟨hparent, houter⟩ := List.forall_mem_cons.1 hparents
    have hadd {child : Node} (hchild : child.Named P) :
        Machine.Named P { stack, nodes := parent.add child :: outer, root } :=
      ⟨h.stack, List.forall_mem_cons.2 ⟨add hparent hchild, houter⟩, h.root⟩
    rcases closeNode_cases stack node parent outer root with
      ⟨-, heq⟩ | ⟨child, hone, -, heq⟩ | ⟨-, -, heq⟩
    · rw [heq]
      exact ⟨h.stack, hparents, h.root⟩
    · have hmem : child ∈ node.close.children := by simp [OpenNode.close, Node.children, hone]
      rw [heq]
      exact hadd (hnode.children child hmem)
    · rw [heq]
      exact hadd hnode

theorem addLeaf (h : m.Named P) {t : Token} (ht : P t.name) : (m.addLeaf t).Named P := by
  obtain ⟨stack, nodes, root⟩ := m
  cases nodes with
  | nil => exact h
  | cons node outer =>
    obtain ⟨hnode, houter⟩ := List.forall_mem_cons.1 h.nodes
    exact ⟨h.stack, List.forall_mem_cons.2 ⟨add hnode (.leaf _ ht), houter⟩, h.root⟩

theorem expand (hg : g.toRuleSet.Named P) (h : m.Named P)
    {p : Nat × Grammar.Alternative Grammar.Symbol} (hp : p ∈ g.alternatives) :
    (m.expand p.2).Named P := by
  have hstack (more : List Task) (hmore : ∀ t ∈ more, t = .close ∨ t ∈ m.stack) (name : String)
      (id : Nat) (hmem : .expect (.terminal name id) ∈ tasks p.2.sequence ++ more) (hid : id ≠ 0) :
      P name := by
    rcases List.mem_append.1 hmem with hmem | hmem
    · refine hg.terminal p hp name id ?_
      obtain ⟨s, hs, heq⟩ := List.mem_map.1 hmem
      exact Task.expect.inj heq ▸ (List.mem_filter.1 hs).1
    · exact h.stack name id ((hmore _ hmem).resolve_left nofun) hid
  cases hsub : p.2.subrule with
  | true =>
    rw [Machine.expand_of_subrule hsub]
    exact ⟨hstack _ fun t ht => .inr ht, h.nodes, h.root⟩
  | false =>
    rw [Machine.expand_of_not_subrule hsub]
    refine ⟨hstack _ fun t ht => List.mem_cons.1 ht, List.forall_mem_cons.2 ⟨?_, h.nodes⟩, h.root⟩
    exact .rule _ (hg.rule p hp hsub) fun _ hchild => absurd hchild List.not_mem_nil

/-- Every step keeps this: nodes are opened for alternatives, and leaves are made of the tokens that
are expected. -/
theorem step (hg : g.toRuleSet.Named P) (hc : g.Compiled) (hr : g.Resolved) (m : Machine) (t : Token)
    (h : m.Named P) : Keeps (·.Named P) (m.step g t) := by
  have hrest {task : Task} {stack : List Task} (hstack : m.stack = task :: stack) :
      Machine.Named P { m with stack } :=
    h.drop fun t ht => hstack ▸ List.mem_cons_of_mem task ht
  unfold Machine.step
  split
  · exact h
  · next hstack => exact (hrest hstack).closeNode
  · next hstack => exact hrest hstack
  · next name id stack hstack =>
    dsimp only
    split
    · trivial
    next hname =>
      split
      · exact hrest hstack
      · next hid =>
        refine (hrest hstack).addLeaf (h.stack t.name id ?_ hid)
        rw [hstack, not_ne_iff.1 hname]
        exact List.mem_cons_self
  · next hstack =>
    split
    · next a hchoice =>
      obtain ⟨k, ha⟩ := hc.exists_mem_of_choice hr hchoice
      exact (hrest hstack).expand hg (Grammar.RuleSet.mem_alternatives_of_mem_alternativesOf ha)
    · trivial

theorem closeNodes (h : m.Named P) (n : Nat) : (m.closeNodes n).Named P := by
  induction n generalizing m with
  | zero => exact h
  | succ n ih => exact ih h.closeNode

theorem result (h : m.Named P) {tree : Node} (htree : m.result = .ok tree) : tree.Named P := by
  unfold Machine.result at htree
  split at htree
  · next root hroot =>
    cases htree
    exact (h.closeNodes _).root _ hroot
  · cases htree

end Named

end Parse.Machine

namespace Grammar

open Node (Plain)

variable {text : String} {config : Config} {g : Grammar}

/-! ## Names of texts -/

theorem plain_of_mem_word {lexeme : String} (h : lexeme.toList ∈ Vocabulary.Word "id") :
    Plain lexeme := by
  obtain ⟨hne, hall⟩ := Vocabulary.isNameChar_of_mem_word h
  refine ⟨mt String.toList_eq_nil_iff.2 hne, fun c hc => ⟨?_, ?_⟩⟩
  · rintro rfl
    exact absurd (hall _ hc) (by decide)
  · exact (Vocabulary.ne_break_of_isNameChar (hall c hc)).1

theorem plain_subruleName {home : String} (h : Plain home) (number : Nat) :
    Plain (subruleName home number) := by
  refine ⟨subruleName_ne_empty home number, fun c hc => ?_⟩
  rw [toList_subruleName] at hc
  simp only [List.mem_append, List.mem_cons, List.not_mem_nil, or_false] at hc
  rcases hc with hc | rfl | hc | rfl
  · exact h.2 c hc
  · decide
  · have hdigit := Nat.isDigit_of_mem_toDigits (by decide) (by decide) hc
    constructor <;> rintro rfl <;> revert hdigit <;> decide
  · decide

/-- The names in a grammar text are plain. -/
theorem plain_of_readBlocks {blocks : List Block} (h : readBlocks text = .ok blocks) :
    ∀ b ∈ blocks, Plain b.name ∧ b.body.Grouped Plain true := by
  intro b hb
  obtain ⟨words, eof, hwords, -, hwrites⟩ := exists_tokens_of_readBlocks h
  have hplain : ∀ t ∈ (Tokenizer.ofText words text).collect.tokens, t.name = "id" → Plain t.lexeme := by
    intro t ht hname
    have htokens : (Tokenizer.ofText words text).collect.tokens = _ :=
      congrArg Prod.fst (Vocabulary.cut_eq_scan hwords text)
    have hword := Vocabulary.mem_word_of_mem_scan t (htokens ▸ ht)
    exact plain_of_mem_word (hname ▸ hword)
  obtain ⟨head, hhead, s, hs, hid, hname, hbody⟩ := ((hwrites blocks).2 rfl).exists_of_mem hb
  exact ⟨hname ▸ hplain head hhead hid, hbody.grouped fun t ht => hplain t (hs ht)⟩

theorem named_of_parse (h : Grammar.parse text config = .ok g) : g.toRuleSet.Named Plain := by
  obtain ⟨b, blocks, hblocks, hrules⟩ := exists_blocks_of_readRules (compiled_of_parse h).2
  have hplain := plain_of_readBlocks hblocks
  rw [hrules]
  refine ⟨fun p hp hsub => ?_, fun p hp name id hmem => ?_⟩
  · obtain ⟨c, hc, hname, -⟩ := exists_block_of_mem_alternatives hp hsub
    exact hname ▸ (hplain c hc).1
  · obtain ⟨text, htext, a, ha, i, hi, hs⟩ := RuleSet.exists_mem_alternatives_iff.1 ⟨p, hp, hmem⟩
    obtain rfl : i = .name name := by
      rw [← item_symbolOf config.eof (desugarBlocks (b :: blocks)) i, hs]
      rfl
    obtain ⟨-, c, hc, first, ha⟩ := exists_block_of_mem_desugarBlocks htext ha
    rcases Block.name_of_mem_sequence_desugar (hplain c hc).2 ha hi with hname | ⟨part, -, hname⟩
    · exact hname
    · exact hname ▸ plain_subruleName (hplain c hc).1 _

/-! ## Listings of parse trees -/

variable {σ τ : Type} [TokenStream σ] [TokenStream τ]

/-- A parse of the tokens of a stream gives the tree, in some number of rounds. -/
def Returns (g : Grammar) (stream : σ) (tree : Node) : Prop :=
  ∃ t next rounds last, TokenStream.next stream = (.ok t, next) ∧
    Parse.run g (Parse.Machine.taskBound g) rounds (.start g) t next = .done (.ok tree) last

theorem returns_of_parseTokens {stream last : σ} {tree : Node}
    (h : g.parseTokens stream = some (.ok tree, last)) : g.Returns stream tree := by
  rcases exists_run_of_parseTokens h with ⟨e, he⟩ | ⟨t, next, rounds, hnext, hrun⟩
  · cases he
  · exact ⟨t, next, rounds, last, hnext, hrun⟩

theorem plain_of_returns (h : Grammar.parse text config = .ok g) {stream : σ} {tree : Node}
    (htree : g.Returns stream tree) : tree.Named Plain := by
  obtain ⟨hcompiled, hrules⟩ := compiled_of_parse h
  obtain ⟨t, next, rounds, last, hnext, hrun⟩ := htree
  obtain ⟨w, final, -, ⟨n, haccepts⟩, hresult⟩ := exists_accepts_of_run hnext hrun
  have hfinal : final.Named Plain := haccepts.keeps
    (Parse.Machine.Named.step (named_of_parse h) hcompiled (resolved_of_readRules hrules))
    (Parse.Machine.Named.start g)
  exact hfinal.result hresult

/-- Two trees that are parsed, be it with different grammars and from different streams, have the same
listing exactly if they differ in nothing but the marks of their rules. -/
theorem text_eq_iff_of_returns {text' : String} {config' : Config} {g' : Grammar}
    (h : Grammar.parse text config = .ok g) (h' : Grammar.parse text' config' = .ok g')
    {stream : σ} {stream' : τ} {tree tree' : Node} (htree : g.Returns stream tree)
    (htree' : g'.Returns stream' tree') : tree.text = tree'.text ↔ tree.unmarked = tree'.unmarked :=
  Node.text_eq_iff (plain_of_returns h htree) (plain_of_returns h' htree')

/-- A rule with a mark and the same rule without one are listed alike, also with a lexeme that looks like
a line of the listing. -/
theorem text_eq_iff_of_returns_marked :
    let tape := TokenTape.ofTokens [⟨"a", "1\n  b \x222\x22", 1⟩, ⟨"b", "2", 2⟩, ⟨"x", "", 2⟩] {}
    ∃ g g' tree tree', Grammar.parse "S -> A x\nA -> a b [>1]" {} = .ok g ∧
      Grammar.parse "S -> A x\nA -> a b" {} = .ok g' ∧
      g.Returns tape tree ∧ g'.Returns tape tree' ∧ tree.text = tree'.text ∧
      tree.unmarked = tree'.unmarked ∧ tree.entries 0 ≠ tree'.entries 0 := by
  intro tape
  let entries (multiChild : Bool) : List Node.Entry := [⟨0, "S", none, false⟩,
    ⟨1, "A", none, multiChild⟩, ⟨2, "a", some "1\n  b \x222\x22", false⟩,
    ⟨2, "b", some "2", false⟩, ⟨1, "x", some "", false⟩]
  have hparse (text : String) (multiChild : Bool)
      (h : (Grammar.parse text {}).toOption.any (fun g =>
        ((g.parseTokens tape).bind (·.1.toOption)).any (·.entries 0 = entries multiChild)) = true) :
      ∃ g tree, Grammar.parse text {} = .ok g ∧ g.Returns tape tree ∧
        tree.entries 0 = entries multiChild := by
    cases hg : Grammar.parse text {} with
    | error e =>
      rw [hg] at h
      cases h
    | ok g =>
      rw [hg] at h
      obtain ⟨tree, last, htree, hentries⟩ := exists_ok_of_any h
      exact ⟨g, tree, rfl, returns_of_parseTokens htree, of_decide_eq_true hentries⟩
  obtain ⟨g, tree, hg, htree, hentries⟩ := hparse "S -> A x\nA -> a b [>1]" true (by
    unfold Grammar.parse readRules
    rw [readBlocks_eq_read_scan]
    decide +kernel)
  obtain ⟨g', tree', hg', htree', hentries'⟩ := hparse "S -> A x\nA -> a b" false (by
    unfold Grammar.parse readRules
    rw [readBlocks_eq_read_scan]
    decide +kernel)
  have htext : tree.text = tree'.text := by
    rw [Node.text, Node.text, hentries, hentries']
    rfl
  refine ⟨g, g', tree, tree', hg, hg', htree, htree', htext,
    (text_eq_iff_of_returns hg hg' htree htree').1 htext, ?_⟩
  rw [hentries, hentries']
  decide

end Grammar

end Predictive
