import Predictive.Proofs.Terminals

/-!
# Tables of names

Names are resolved in the order in which they are written: a name that a rule has stands for the rule,
and any other is a terminal, which takes the next number when it is first met (`intern`). Whether a name
is met before or after makes no difference to the number, since numbers are given out once
(`internTexts_eq`). So the tables of rules and of terminals tell names and numbers apart, and each symbol
of an alternative has the name and the number of an entry in one of them (`RuleSet.Tabled`), also where
the end of the input is called like a rule (`tabled_ofTexts`).
-/

namespace Predictive.Grammar

/-! ## Interning -/

/-- The number of a terminal; a name that is not listed takes the next number. -/
def intern (name : String) : StateM (List String) Nat := do
  let terminals ← get
  match terminals.idxOf? name with
  | some id => return id
  | none =>
    set (terminals ++ [name])
    return terminals.length

/-- Resolves an item by its name, where rules are called `names`. The empty group has the empty name, but
stays what it is. -/
def internItem (names : List String) (i : Item) : StateM (List String) Symbol := do
  let symbol ← match names.idxOf? i.ident with
    | some id => pure (.rule i.ident id)
    | none => .terminal i.ident <$> intern i.ident
  return if i = .empty then .empty else symbol

/-- Resolves the items of an alternative. -/
def internAlternative (names : List String) (a : Alternative Item) :
    StateM (List String) (Alternative Symbol) := do
  return { a with sequence := ← a.sequence.mapM (internItem names) }

/-- Resolves the alternatives of each rule. -/
def internTexts (names : List String) (texts : RuleTexts) :
    StateM (List String) (List (List (Alternative Symbol))) :=
  texts.mapM fun text => text.2.mapM (internAlternative names)

section Interning

variable {names : List String} {eof name : String} {α β : Type}

/-- The terminals that are listed once the names `met` have been met. -/
def listed (names : List String) (eof : String) (met : List String) : List String :=
  (eof :: met.filter (· ∉ names)).eraseDups

theorem listed_append (names : List String) (eof : String) (met more : List String) :
    ∃ fresh, listed names eof (met ++ more) = listed names eof met ++ fresh := by
  rw [listed, List.filter_append, ← List.cons_append, List.eraseDups_append]
  exact ⟨_, rfl⟩

/-- A listed name keeps its number. -/
theorem idxOf_listed_append {met : List String} (h : name ∈ listed names eof met)
    (more : List String) :
    (listed names eof (met ++ more)).idxOf name = (listed names eof met).idxOf name := by
  obtain ⟨fresh, hfresh⟩ := listed_append names eof met more
  rw [hfresh, List.idxOf_append_of_mem h]

theorem mem_listed {met : List String} :
    name ∈ listed names eof met ↔ name = eof ∨ name ∈ met ∧ name ∉ names := by
  simp [listed, List.mem_eraseDups]

theorem listed_concat (hname : name ∉ names) (met : List String) :
    listed names eof (met ++ [name]) = ((eof :: met.filter (· ∉ names)) ++ [name]).eraseDups := by
  simp [listed, hname]

/-- A name that is listed, or that a rule has, adds nothing. -/
theorem listed_concat_of_mem {met : List String} (h : name ∈ names ∨ name ∈ listed names eof met) :
    listed names eof (met ++ [name]) = listed names eof met := by
  by_cases hname : name ∈ names
  · simp [listed, hname]
  · have hmem := h.resolve_left hname
    rw [listed, List.mem_eraseDups] at hmem
    rw [listed_concat hname, listed]
    generalize eof :: met.filter (· ∉ names) = all at hmem ⊢
    simp [List.eraseDups_append, List.removeAll, hmem]

/-- A name that is met for the first time is listed last. -/
theorem listed_concat_of_notMem {met : List String} (hname : name ∉ names)
    (h : name ∉ listed names eof met) :
    listed names eof (met ++ [name]) = listed names eof met ++ [name] := by
  rw [listed, List.mem_eraseDups] at h
  rw [listed_concat hname, listed]
  generalize eof :: met.filter (· ∉ names) = all at h ⊢
  simp [List.eraseDups_append, List.removeAll, h, List.eraseDups_cons]

/-- A step lists the names that it meets and gives what `value` gives for all terminals, whatever names
were met before or are met after. -/
def Interns (names : List String) (eof : String) (step : α → StateM (List String) β)
    (value : List String → α → β) (met : α → List String) : Prop :=
  ∀ a before after, (step a).run (listed names eof before) =
    (value (listed names eof (before ++ met a ++ after)) a, listed names eof (before ++ met a))

/-- Steps one after another list the names of all. -/
theorem Interns.mapM {step : α → StateM (List String) β} {value : List String → α → β}
    {met : α → List String} (h : Interns names eof step value met) :
    Interns names eof (List.mapM step) (fun terminals => List.map (value terminals))
      (List.flatMap met) := by
  intro as
  induction as with
  | nil =>
    intro before after
    simp
    rfl
  | cons a as ih =>
    intro before after
    rw [List.mapM_cons, StateT.run_bind, h a before (as.flatMap met ++ after)]
    show ((List.mapM step as >>= fun bs => pure (_ :: bs)) : StateM _ _).run _ = _
    have hrest := ih (before ++ met a) after
    rw [StateT.run_bind, hrest, List.flatMap_cons, ← List.append_assoc, ← List.append_assoc]
    rfl

/-- A name that no rule has is listed, and its number is that of the name among all terminals. -/
theorem run_intern (h : name ∉ names) (before after : List String) :
    (intern name).run (listed names eof before) =
      ((listed names eof (before ++ [name] ++ after)).idxOf name,
        listed names eof (before ++ [name])) := by
  have hmem : name ∈ listed names eof (before ++ [name]) := mem_listed.2 (.inr ⟨by simp, h⟩)
  rw [idxOf_listed_append hmem]
  unfold intern
  by_cases hlisted : name ∈ listed names eof before
  · rw [listed_concat_of_mem (.inr hlisted)]
    obtain ⟨id, hid⟩ := exists_idxOf?_of_mem hlisted
    rw [List.idxOf_eq_getD_idxOf?, hid]
    simp [hid]
    rfl
  · rw [listed_concat_of_notMem h hlisted]
    rw [List.idxOf_append, if_neg hlisted, List.idxOf_cons_self, Nat.zero_add]
    simp [List.idxOf?_eq_none_iff.2 hlisted]
    rfl

theorem interns_item (names : List String) (eof : String) :
    Interns names eof (internItem names) (resolve names) fun i => [i.ident] := by
  intro i before after
  unfold internItem
  cases hid : names.idxOf? i.ident with
  | some id =>
    have hmem : i.ident ∈ names := List.mem_of_getElem? (getElem?_of_idxOf? hid)
    rw [listed_concat_of_mem (.inl hmem)]
    cases i with
    | empty => rfl
    | name n =>
      have hresolve (terminals : List String) : resolve names terminals (.name n) = .rule n id := by
        rw [resolve, show names.idxOf? n = some id from hid]
      rw [hresolve]
      rfl
  | none =>
    have hnot : i.ident ∉ names := List.idxOf?_eq_none_iff.1 hid
    show (Symbol.terminal i.ident <$> intern i.ident >>= fun symbol =>
      pure (if i = .empty then .empty else symbol)).run _ = _
    rw [StateT.run_bind, StateT.run_map, run_intern hnot before after]
    cases i with
    | empty => rfl
    | name n =>
      rw [resolve, show names.idxOf? n = none from hid]
      rfl

theorem interns_alternative (names : List String) (eof : String) :
    Interns names eof (internAlternative names) (fun terminals a => a.map (resolve names terminals))
      fun a => a.sequence.map (·.ident) := by
  intro a before after
  have hitems := (interns_item names eof).mapM a.sequence before after
  rw [← List.map_eq_flatMap] at hitems
  rw [internAlternative, StateT.run_bind, hitems]
  rfl

/-- Resolving names one after another gives the symbols of the rule set, and lists its terminals. -/
theorem internTexts_eq (eof : String) (texts : RuleTexts) :
    (internTexts (texts.map (·.1)) texts).run [eof] =
      (texts.map fun text => text.2.map (Alternative.map (symbolOf eof texts)),
        terminalNames eof texts) := by
  have hrule : Interns (texts.map (·.1)) eof
      (fun (text : String × List (Alternative Item)) =>
        text.2.mapM (internAlternative (texts.map (·.1))))
      (fun terminals text => text.2.map (Alternative.map (resolve (texts.map (·.1)) terminals)))
      fun text => text.2.flatMap fun a => a.sequence.map (·.ident) :=
    fun text => (interns_alternative (texts.map (·.1)) eof).mapM text.2
  have hall := hrule.mapM texts [] []
  rw [List.nil_append, List.append_nil] at hall
  exact hall

end Interning

/-! ## Names of rules -/

section RuleNames

variable {b : Block} {blocks : List Block} {name owner : String} {first : Nat} {x : Expr} {p : Part}
  {a : Alternative Item}

/-- What is added within any right-hand side is for the owner, or for the sub-rule of a part. -/
theorem Expr.name_of_mem_added_of_any (ha : a ∈ x.added b owner first) :
    a.name = owner ∨ ∃ p ∈ x.parts first, a.name = p.name b.name := by
  induction x generalizing owner first with
  | name n | empty => cases ha
  | group x ih =>
    refine .inr ?_
    rcases List.mem_append.1 ha with ha | ha
    · rcases ih ha with hname | ⟨p, hp, hname⟩
      · exact ⟨_, List.mem_cons_self, hname⟩
      · exact ⟨p, List.mem_cons_of_mem _ hp, hname⟩
    · obtain rfl := List.mem_singleton.1 ha
      exact ⟨_, List.mem_cons_self, rfl⟩
  | concat l r ihl ihr =>
    rcases List.mem_append.1 ha with ha | ha
    · exact (ihl ha).imp_right fun ⟨p, hp, hname⟩ => ⟨p, List.mem_append_left _ hp, hname⟩
    · exact (ihr ha).imp_right fun ⟨p, hp, hname⟩ => ⟨p, List.mem_append_right _ hp, hname⟩
  | alt l r ihl ihr =>
    simp only [added, List.mem_append, List.mem_singleton] at ha
    rcases ha with (ha | ha) | rfl
    · exact (ihl ha).imp_right fun ⟨p, hp, hname⟩ => ⟨p, List.mem_append_left _ hp, hname⟩
    · exact (ihr ha).imp_right fun ⟨p, hp, hname⟩ => ⟨p, List.mem_append_right _ hp, hname⟩
    · exact .inl rfl
  | star x ih | optional x ih =>
    simp only [added, List.mem_append, List.mem_cons, List.not_mem_nil, or_false] at ha
    rcases ha with ha | rfl | rfl
    · exact (ih ha).imp_right fun ⟨p, hp, hname⟩ => ⟨p, List.mem_append_left _ hp, hname⟩
    · exact .inr ⟨_, List.mem_append_right _ (List.mem_singleton_self _), rfl⟩
    · exact .inr ⟨_, List.mem_append_right _ (List.mem_singleton_self _), rfl⟩

/-- An alternative is added for the sub-rule of each part. -/
theorem Expr.exists_mem_added (b : Block) (owner : String) (hp : p ∈ x.parts first) :
    ∃ a ∈ x.added b owner first, a.name = p.name b.name := by
  induction x generalizing owner first with
  | name n | empty => cases hp
  | group x ih =>
    rcases List.mem_cons.1 hp with rfl | hp
    · exact ⟨_, List.mem_append_right _ (List.mem_singleton_self _), rfl⟩
    · obtain ⟨a, ha, hname⟩ := ih _ hp
      exact ⟨a, List.mem_append_left _ ha, hname⟩
  | concat l r ihl ihr | alt l r ihl ihr =>
    rcases List.mem_append.1 hp with hp | hp
    · obtain ⟨a, ha, hname⟩ := ihl owner hp
      exact ⟨a, by simp [added, ha], hname⟩
    · obtain ⟨a, ha, hname⟩ := ihr owner hp
      exact ⟨a, by simp [added, ha], hname⟩
  | star x ih | optional x ih =>
    rcases List.mem_append.1 hp with hp | hp
    · obtain ⟨a, ha, hname⟩ := ih owner hp
      exact ⟨a, List.mem_append_left _ ha, hname⟩
    · obtain rfl := List.mem_singleton.1 hp
      exact ⟨_, List.mem_append_right _ List.mem_cons_self, rfl⟩

/-- Some block has the name, or the sub-rule for a group, a `*` or a `?` of a block. -/
def IsRuleName (blocks : List Block) (name : String) : Prop :=
  (∃ b ∈ blocks, b.name = name) ∨ ∃ m ∈ allParts blocks, generatedName m = name

theorem mem_names_iff_isRuleName :
    name ∈ (desugarBlocks blocks).map (·.1) ↔ IsRuleName blocks name := by
  rw [mem_names_iff]
  constructor
  · rintro (hb | ⟨a, ha, rfl⟩)
    · exact .inl hb
    · obtain ⟨q, hq, ha⟩ := mem_allAlternatives_iff.1 ha
      rw [Block.desugar_eq] at ha
      rcases List.mem_append.1 ha with ha | ha
      · rcases Expr.name_of_mem_added_of_any ha with hname | ⟨p, hp, hname⟩
        · exact .inl ⟨q.1, mem_of_mem_numbered hq, hname.symm⟩
        · exact .inr ⟨(q.1.name, p), mem_allParts_iff.2 ⟨q, hq, rfl, hp⟩, hname.symm⟩
      · obtain rfl := List.mem_singleton.1 ha
        exact .inl ⟨q.1, mem_of_mem_numbered hq, rfl⟩
  · rintro (hb | ⟨m, hm, rfl⟩)
    · exact .inl hb
    · obtain ⟨q, hq, hhome, hp⟩ := mem_allParts_iff.1 hm
      obtain ⟨a, ha, hname⟩ := Expr.exists_mem_added q.1 q.1.name hp
      refine .inr ⟨a, mem_allAlternatives_iff.2 ⟨q, hq, ?_⟩, by rw [hname, hhome]; rfl⟩
      rw [Block.desugar_eq]
      exact List.mem_append_left _ ha

/-- The first alternative of the first block's rule is made for that block, so the rule is none of the
sub-rules. -/
theorem exists_head?_own (b : Block) (blocks : List Block) :
    ∃ a, ((allAlternatives (b :: blocks)).filter (·.name = b.name)).head? = some a ∧
      a.subrule = false := by
  have hsplit : allAlternatives (b :: blocks) = (b.desugar 1).alternatives ++
      (desugarEach (b.desugar 1).nextNumber blocks).flatMap (·.2) := List.flatMap_cons ..
  have hown : b.alternative b.name (b.body.symbols b.name 1) ∈
      (b.desugar 1).alternatives.filter (·.name = b.name) := by
    rw [Block.desugar_eq]
    simp
  cases hfilter : (b.desugar 1).alternatives.filter (·.name = b.name) with
  | nil => simp [hfilter] at hown
  | cons a rest =>
    have ha : a ∈ (b.desugar 1).alternatives.filter (·.name = b.name) := hfilter ▸ List.mem_cons_self
    obtain ⟨hmem, hname⟩ := List.mem_filter.1 ha
    refine ⟨a, by rw [hsplit, List.filter_append, hfilter]; rfl, Bool.eq_false_iff.2 fun hsub => ?_⟩
    exact (b.marked_desugar 1 a hmem).2.1 hsub (of_decide_eq_true hname)

end RuleNames

/-! ## Tables -/

namespace RuleSet

variable {b : Block} {blocks : List Block} {eof : String}

/-- The tables of `g` are those for the blocks `b :: blocks`, where the end of the input is called `eof`,
and the symbols of the alternatives are entries of them. -/
structure Tabled (g : RuleSet) (eof : String) (b : Block) (blocks : List Block) : Prop where
  /-- The rules and their alternatives are those that the blocks stand for. -/
  written : g.rules.map (fun rule =>
    (rule.name, rule.alternatives.map fun a => a.2.map Symbol.item)) = desugarBlocks (b :: blocks)
  /-- A name that a block or a sub-rule has stands for the rule of that name. -/
  rule : ∀ a ∈ g.alternatives, ∀ s ∈ a.2.sequence, ∀ name, s.item = .name name →
    IsRuleName (b :: blocks) name → ∃ id, s = .rule name id ∧ g.rules[id]?.map (·.name) = some name
  /-- Any other name stands for the terminal of that name. -/
  terminal : ∀ a ∈ g.alternatives, ∀ s ∈ a.2.sequence, ∀ name, s.item = .name name →
    ¬ IsRuleName (b :: blocks) name → ∃ id, s = .terminal name id ∧ g.terminals[id]? = some name
  /-- The rules are called as blocks and sub-rules are. -/
  mem_names_iff : ∀ name, name ∈ g.rules.map (·.name) ↔ IsRuleName (b :: blocks) name
  /-- A rule has the number under which its name is found. -/
  ruleNumber?_iff : ∀ name id, g.ruleNumber? name = some id ↔
    g.rules[id]?.map (·.name) = some name
  /-- A terminal has the number under which its name is found. -/
  terminalNumber?_iff : ∀ name id, g.terminalNumber? name = some id ↔ g.terminals[id]? = some name
  /-- Different rules have different names. -/
  nodup_names : (g.rules.map (·.name)).Nodup
  /-- Different terminals have different names. -/
  nodup_terminals : g.terminals.Nodup
  /-- The end of the input is the first terminal. -/
  eof : g.eof = .terminal eof 0 ∧ g.terminals[0]? = some eof
  /-- The start is the rule of the first block, which is not a sub-rule. -/
  start : g.start = .rule b.name 0 ∧
    ∃ rule, g.rules[0]? = some rule ∧ rule.name = b.name ∧ rule.subrule = false
  /-- The alternatives are numbered in order. -/
  numbers : g.alternatives.map (·.1) = List.range g.alternatives.length
  /-- An alternative belongs to the rule of its name and to no other. -/
  owner : ∀ a ∈ g.alternatives, ∃ r, g.rules[r]?.map (·.name) = some a.2.name ∧
    ∀ r', a ∈ g.alternativesOf r' ↔ r' = r

theorem idxOf?_eq_some_iff_getElem? {names : List String} (h : names.Nodup) {name : String}
    {id : Nat} : names.idxOf? name = some id ↔ names[id]? = some name := by
  refine ⟨getElem?_of_idxOf?, fun hget => ?_⟩
  obtain ⟨id', hid'⟩ := exists_idxOf?_of_mem (List.mem_of_getElem? hget)
  rwa [← place_unique h (getElem?_of_idxOf? hid') hget]

theorem map_numbers_numberRules (symbol : Item → Symbol) (number : Nat) (texts : RuleTexts) :
    ((numberRules symbol number texts).flatMap (·.alternatives)).map (·.1) =
      List.range' number (texts.flatMap (·.2)).length := by
  induction texts generalizing number with
  | nil => rfl
  | cons text texts ih =>
    have hfirst : ((text.2.zipIdx number).map fun a => (a.2, a.1.map symbol)).map (·.1) =
        List.range' number text.2.length := by
      rw [List.map_map]
      exact List.zipIdx_map_snd number text.2
    rw [numberRules, List.flatMap_cons, List.map_append, ih, List.flatMap_cons, List.length_append,
      ← List.range'_append_1]
    exact congrArg (· ++ _) hfirst

/-- An alternative whose symbols are known is written as before. -/
theorem map_item_map_symbolOf (eof : String) (texts : RuleTexts) (a : Alternative Item) :
    (a.map (symbolOf eof texts)).map Symbol.item = a := by
  cases a
  simp [Alternative.map, Function.comp_def, item_symbolOf]

theorem written_ofTexts (eof : String) (texts : RuleTexts) :
    (ofTexts eof texts).rules.map (fun rule =>
      (rule.name, rule.alternatives.map fun a => a.2.map Symbol.item)) = texts := by
  have hrules := map_rules_numberRules (symbolOf eof texts) 0 texts
  have hitems := congrArg (List.map fun rule => (rule.1, rule.2.map (Alternative.map Symbol.item)))
    hrules
  simp only [List.map_map, Function.comp_def, map_item_map_symbolOf, List.map_id'] at hitems
  exact hitems

/-- A symbol of an alternative is what its name or the empty group stands for, with the number that its
name has. -/
theorem eq_symbolOf_of_mem {texts : RuleTexts} {a : Nat × Alternative Symbol} {s : Symbol}
    (ha : a ∈ (ofTexts eof texts).alternatives) (hs : s ∈ a.2.sequence) :
    s = symbolOf eof texts s.item ∧ (ofTexts eof texts).Names s := by
  obtain ⟨text, htext, a', ha', i, hi, rfl⟩ := exists_mem_alternatives_iff.1 ⟨a, ha, hs⟩
  exact ⟨by rw [item_symbolOf], names_symbolOf htext ha' hi⟩

theorem start_ofTexts (eof : String) (b : Block) (blocks : List Block) :
    ∃ rule, (ofTexts eof (desugarBlocks (b :: blocks))).rules[0]? = some rule ∧
      rule.name = b.name ∧ rule.subrule = false := by
  obtain ⟨alternatives, hhead⟩ := head?_desugarBlocks b blocks
  have hname : ((desugarBlocks (b :: blocks)).map (·.1))[0]? = some b.name := by
    rw [← List.head?_eq_getElem?, List.head?_map, hhead]
    rfl
  obtain ⟨first, hrule⟩ := getElem?_numberRules (symbolOf eof (desugarBlocks (b :: blocks))) 0
    (desugarBlocks (b :: blocks)) 0
  rw [getElem?_desugarBlocks hname] at hrule
  obtain ⟨a, ha, hsub⟩ := exists_head?_own b blocks
  exact ⟨_, hrule, rfl, by simp [ha, hsub]⟩

theorem numbers_ofTexts (eof : String) (texts : RuleTexts) :
    (ofTexts eof texts).alternatives.map (·.1) =
      List.range (ofTexts eof texts).alternatives.length := by
  have hnumbers : (ofTexts eof texts).alternatives.map (·.1) =
      List.range' 0 (texts.flatMap (·.2)).length := map_numbers_numberRules _ 0 texts
  have hlength := congrArg List.length hnumbers
  rw [List.length_map, List.length_range'] at hlength
  rw [hnumbers, hlength, List.range_eq_range']

theorem tabled_ofTexts (eof : String) (b : Block) (blocks : List Block) :
    (ofTexts eof (desugarBlocks (b :: blocks))).Tabled eof b blocks := by
  have hnames := map_name_rules_ofTexts eof (desugarBlocks (b :: blocks))
  have hnodup := nodup_names (b :: blocks)
  have hzero : (terminalNames eof (desugarBlocks (b :: blocks)))[0]? = some eof := by
    simp [terminalNames, List.eraseDups_cons]
  have hrule {name : String} {id : Nat} :
      (ofTexts eof (desugarBlocks (b :: blocks))).rules[id]?.map (·.name) = some name ↔
        ((desugarBlocks (b :: blocks)).map (·.1)).idxOf? name = some id := by
    rw [idxOf?_eq_some_iff_getElem? hnodup, ← hnames, List.getElem?_map]
  obtain ⟨start, hstart, hname, hsub⟩ := start_ofTexts eof b blocks
  refine
    { written := written_ofTexts ..
      rule := fun a ha s hs name hitem hname => ?_
      terminal := fun a ha s hs name hitem hname => ?_
      mem_names_iff := fun name => by rw [hnames, mem_names_iff_isRuleName]
      ruleNumber?_iff := fun name id => by rw [hrule, ruleNumber?_ofTexts]
      terminalNumber?_iff := fun name id => idxOf?_eq_some_iff_getElem? (nodup_eraseDups _)
      nodup_names := hnames ▸ hnodup
      nodup_terminals := nodup_eraseDups _
      eof := ⟨eof_ofTexts .., hzero⟩
      start := ⟨?_, start, hstart, hname, hsub⟩
      numbers := numbers_ofTexts ..
      owner := fun a ha => ?_ }
  · obtain ⟨id, hid⟩ := exists_idxOf?_of_mem (mem_names_iff_isRuleName.2 hname)
    refine ⟨id, ?_, hrule.2 hid⟩
    rw [(eq_symbolOf_of_mem ha hs).1, hitem, symbolOf_of_idxOf? eof hid]
  · obtain ⟨hs', hnumber⟩ := eq_symbolOf_of_mem ha hs
    rw [hitem] at hs'
    rcases symbolOf_cases eof (desugarBlocks (b :: blocks)) (.name name) with
      ⟨⟨⟩, -⟩ | ⟨n, id, ⟨⟩, -, hsymbol⟩ | ⟨n, id, ⟨⟩, hn, -⟩
    · rw [hs', hsymbol] at hnumber ⊢
      exact ⟨id, rfl, getElem?_of_idxOf? hnumber⟩
    · exact absurd (mem_names_iff_isRuleName.1 (List.mem_of_getElem? hn)) hname
  · rw [RuleSet.start, ruleName, hstart, Option.map_some, Option.getD_some, hname]
  · obtain ⟨rule, hmem, harule⟩ := List.mem_flatMap.1 ha
    obtain ⟨r, hr⟩ := List.mem_iff_getElem?.1 hmem
    have halternatives : a ∈ (ofTexts eof (desugarBlocks (b :: blocks))).alternativesOf r := by
      rw [alternativesOf, hr]
      exact harule
    have hname := name_of_mem_alternativesOf halternatives
    refine ⟨r, hname, fun r' => ⟨fun hr' => ?_, fun heq => heq ▸ halternatives⟩⟩
    exact Option.some.inj
      ((hrule.1 (name_of_mem_alternativesOf hr')).symm.trans (hrule.1 hname))

/-- For every list of blocks and whatever the end of the input is called, also if a rule is called so:
resolving names one after another gives the alternatives and the terminals of the rule set, and its tables
are those for the blocks. -/
theorem ofTexts_resolves (eof : String) (b : Block) (blocks : List Block) :
    (internTexts ((desugarBlocks (b :: blocks)).map (·.1)) (desugarBlocks (b :: blocks))).run [eof] =
      ((ofTexts eof (desugarBlocks (b :: blocks))).rules.map fun rule => rule.alternatives.map (·.2),
        (ofTexts eof (desugarBlocks (b :: blocks))).terminals) ∧
      (ofTexts eof (desugarBlocks (b :: blocks))).Tabled eof b blocks := by
  refine ⟨?_, tabled_ofTexts eof b blocks⟩
  rw [internTexts_eq]
  have hrules := congrArg (List.map Prod.snd) (map_rules_numberRules
    (symbolOf eof (desugarBlocks (b :: blocks))) 0 (desugarBlocks (b :: blocks)))
  rw [List.map_map, List.map_map] at hrules
  exact congrArg (·, _) hrules.symm

/-- The end of the input and the rule are both called `S`: in alternatives the name stands for the rule.
-/
example :
    let g := ofTexts "S" (desugarBlocks [⟨"S", .concat (.name "a") (.optional (.name "S")), false, 1⟩])
    g.terminals = ["S", "a"] ∧ g.alternatives.map (·.2.sequence) =
      [[.terminal "a" 1, .rule "S\x7b1\x7d" 1], [.rule "S" 0], []] := by
  decide +kernel

end RuleSet

end Predictive.Grammar
