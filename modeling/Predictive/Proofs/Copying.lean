import Predictive.Proofs.Thompson

/-!
# Copies in another arena

What a copy of a finished automaton is (`Nfa.CopyOf`): its states are new in the arena and stand in the
order of the run that is copied, its edges are those between states of that run, it accepts for no one,
and nothing that was in the arena is changed. The edges by label are enough for the edges as a relation
and for the texts that are read (`CopyOf.of_targets`). `copyInto` makes such a copy, whatever the arena
holds and whatever cycles the run has, and so do two passes that add a state for each place of the run
and then the edges one by one (`copyInto_copies`).
-/

namespace Predictive.Nfa

variable {n source copied : Nfa} {run : Run Nat}

/-- The run `run` in the arena of `copied` is a copy of the finished automaton `source`, and the arena
of `n` is what was there before. The pairs in `source.graph.zip run` are the states of `source` with
their copies. -/
structure CopyOf (n source copied : Nfa) (run : Run Nat) : Prop where
  /-- There is a copy for each place of the run. -/
  length : run.length = source.graph.length
  /-- The copies are numbered in the order of the run, so no two are the same. -/
  ascending : run.Pairwise (· < ·)
  /-- The copies are the states by which the arena grows. -/
  mem_run_iff : ∀ c, c ∈ run ↔ n.size ≤ c ∧ c < copied.size
  /-- By each label, a copy leads to the copies of the states of the run to which its original leads,
  in the same order. -/
  targets : ∀ q c, (q, c) ∈ source.graph.zip run → ∀ l, (copied.state c).targets l =
    ((source.state q).targets l).filterMap fun r => (source.graph.zip run).lookup r
  /-- The edges of the copies are those between states of the run. -/
  edge_iff : ∀ q c, (q, c) ∈ source.graph.zip run → ∀ l d,
    copied.Edge c l d ↔ ∃ r, (r, d) ∈ source.graph.zip run ∧ source.Edge q l r
  /-- The copies accept for no one. -/
  accepting : ∀ c ∈ run, (copied.state c).accepting = false ∧ (copied.state c).owners = ∅
  /-- The states that were in the arena are as they were. -/
  state : ∀ q < n.size, copied.state q = n.state q
  /-- The run of the arena is as it was. -/
  graph : copied.graph = n.graph
  /-- From one copy to another the texts are read that are read between their originals along the run.
  -/
  paths : ∀ q c r d, (q, c) ∈ source.graph.zip run → (r, d) ∈ source.graph.zip run → ∀ cs,
    copied.Path c cs d ↔ Predictive.Path source.RunEdge q cs r

/-! ## States and their copies -/

/-- In pairs with different first members, looking up finds the pairs. -/
theorem lookup_eq_some_iff_mem {pairs : List (Nat × Nat)} (h : (pairs.map Prod.fst).Nodup) {q c : Nat} :
    pairs.lookup q = some c ↔ (q, c) ∈ pairs := by
  induction pairs with
  | nil => simp
  | cons p pairs ih =>
    obtain ⟨hp, hpairs⟩ := List.nodup_cons.1 h
    rw [List.lookup_cons, List.mem_cons]
    by_cases hq : q = p.1
    · subst hq
      have hnot : (p.1, c) ∉ pairs := fun hmem => hp (List.mem_map.2 ⟨_, hmem, rfl⟩)
      simp [hnot, Prod.ext_iff, eq_comm]
    · simp [beq_false_of_ne hq, ih hpairs, Prod.ext_iff, hq]

section Pairs

variable {graph : Run Nat} {q r c d : Nat}

theorem lookup_zip_iff (hgraph : graph.Nodup) (hlength : run.length = graph.length) :
    (graph.zip run).lookup q = some c ↔ (q, c) ∈ graph.zip run :=
  lookup_eq_some_iff_mem (by rwa [List.map_fst_zip hlength.ge])

/-- Every state of the run has a copy. -/
theorem exists_mem_zip (hlength : run.length = graph.length) (hq : q ∈ graph) :
    ∃ c, (q, c) ∈ graph.zip run := by
  rw [← List.map_fst_zip hlength.ge] at hq
  obtain ⟨⟨_, c⟩, hmem, rfl⟩ := List.mem_map.1 hq
  exact ⟨c, hmem⟩

theorem copy_unique (hgraph : graph.Nodup) (hlength : run.length = graph.length)
    (hc : (q, c) ∈ graph.zip run) (hd : (q, d) ∈ graph.zip run) : c = d :=
  Option.some.inj (((lookup_zip_iff hgraph hlength).2 hc).symm.trans
    ((lookup_zip_iff hgraph hlength).2 hd))

theorem original_unique (hrun : run.Nodup) (hlength : run.length = graph.length)
    (hq : (q, c) ∈ graph.zip run) (hr : (r, c) ∈ graph.zip run) : q = r := by
  have hnodup : ((graph.zip run).map Prod.snd).Nodup := by rwa [List.map_snd_zip hlength.le]
  exact congrArg Prod.fst (List.inj_on_of_nodup_map hnodup hq hr rfl)

end Pairs

/-! ## From edges by label to paths -/

section Paths

variable (hgraph : source.graph.Nodup) (hlength : run.length = source.graph.length)

include hgraph hlength in
theorem edge_iff_of_targets {q c d : Nat} {l : Label}
    (htargets : (copied.state c).targets l =
      ((source.state q).targets l).filterMap fun r => (source.graph.zip run).lookup r) :
    copied.Edge c l d ↔ ∃ r, (r, d) ∈ source.graph.zip run ∧ source.Edge q l r := by
  rw [Edge, ← mem_targets, htargets, List.mem_filterMap]
  refine exists_congr fun r => ?_
  rw [lookup_zip_iff hgraph hlength, mem_targets, ← Edge, and_comm]

variable (hedge : ∀ q c, (q, c) ∈ source.graph.zip run → ∀ l d,
  copied.Edge c l d ↔ ∃ r, (r, d) ∈ source.graph.zip run ∧ source.Edge q l r)

include hlength hedge in
/-- A path from a copy passes copies only, and their originals lie on a path along the run. -/
theorem runPath_of_path (hrun : run.Nodup) {q c r d : Nat} {cs : List Char}
    (hq : (q, c) ∈ source.graph.zip run) (hr : (r, d) ∈ source.graph.zip run)
    (h : copied.Path c cs d) : Predictive.Path source.RunEdge q cs r := by
  have hstep {q c l d : _} (hq : (q, c) ∈ source.graph.zip run) (h : copied.Edge c l d) :
      ∃ r, (r, d) ∈ source.graph.zip run ∧ source.RunEdge q l r := by
    obtain ⟨r, hr, hqr⟩ := (hedge q c hq l d).1 h
    exact ⟨r, hr, (List.of_mem_zip hq).1, (List.of_mem_zip hr).1, hqr⟩
  induction h generalizing q with
  | refl c =>
    obtain rfl := original_unique hrun hlength hq hr
    exact .refl q
  | skip hcd _ ih =>
    obtain ⟨s, hs, hqs⟩ := hstep hq hcd
    exact .skip hqs (ih hs hr)
  | read hcd hreads _ ih =>
    obtain ⟨s, hs, hqs⟩ := hstep hq hcd
    exact .read hqs hreads (ih hs hr)

include hgraph hlength hedge in
/-- The copies of the states on a path along the run lie on a path. -/
theorem path_of_runPath {q c r d : Nat} {cs : List Char} (hq : (q, c) ∈ source.graph.zip run)
    (hr : (r, d) ∈ source.graph.zip run) (h : Predictive.Path source.RunEdge q cs r) :
    copied.Path c cs d := by
  have hstep {q c l r : _} (hq : (q, c) ∈ source.graph.zip run) (h : source.RunEdge q l r) :
      ∃ d, (r, d) ∈ source.graph.zip run ∧ copied.Edge c l d := by
    obtain ⟨d, hd⟩ := exists_mem_zip hlength h.2.1
    exact ⟨d, hd, (hedge q c hq l d).2 ⟨r, hd, h.2.2⟩⟩
  induction h generalizing c with
  | refl q =>
    obtain rfl := copy_unique hgraph hlength hq hr
    exact .refl c
  | skip hqs _ ih =>
    obtain ⟨e, he, hce⟩ := hstep hq hqs
    exact .skip hce (ih he hr)
  | read hqs hreads _ ih =>
    obtain ⟨e, he, hce⟩ := hstep hq hqs
    exact .read hce hreads (ih he hr)

end Paths

/-- States that are new, that lead by each label where the copies should, and that no one owns, are a
copy. -/
theorem CopyOf.of_targets (hgraph : source.graph.Nodup)
    (hsize : copied.size = n.size + source.graph.length)
    (htargets : ∀ q c, (q, c) ∈ source.graph.zip (List.range' n.size source.graph.length) → ∀ l,
      (copied.state c).targets l = ((source.state q).targets l).filterMap fun r =>
        (source.graph.zip (List.range' n.size source.graph.length)).lookup r)
    (howners : ∀ c, n.size ≤ c → (copied.state c).owners = ∅)
    (hstate : ∀ q < n.size, copied.state q = n.state q) (hrun : copied.graph = n.graph) :
    n.CopyOf source copied (List.range' n.size source.graph.length) := by
  have hlength : (List.range' n.size source.graph.length).length = source.graph.length :=
    List.length_range'
  have hedge (q c : Nat) (hq : (q, c) ∈ source.graph.zip (List.range' n.size source.graph.length))
      (l : Label) (d : Nat) := edge_iff_of_targets (d := d) hgraph hlength (htargets q c hq l)
  refine ⟨hlength, List.pairwise_lt_range' 1, fun c => ?_, htargets, hedge, fun c hc => ?_, hstate,
    hrun, fun q c r d hq hr cs => ⟨?_, ?_⟩⟩
  · rw [List.mem_range'_1, hsize]
  · have hnone := howners c (List.mem_range'_1.1 hc).1
    exact ⟨by rw [State.accepting, hnone]; rfl, hnone⟩
  · exact runPath_of_path hlength hedge (List.nodup_range' 1) hq hr
  · exact path_of_runPath hgraph hlength hedge hq hr

/-! ## The copy made at once -/

section Places

variable {graph : Run Nat} {k q c : Nat}

/-- A state and its copy stand at the same place. -/
theorem mem_zip_range'_iff : (q, c) ∈ graph.zip (List.range' k graph.length) ↔
    ∃ i, graph[i]? = some q ∧ c = i + k := by
  simp only [List.mem_iff_getElem?, List.getElem?_zip_eq_some]
  refine exists_congr fun i => and_congr_right fun hq => ?_
  have hi : i < graph.length := (List.getElem?_eq_some_iff.1 hq).1
  rw [List.getElem?_range' hi, Option.some.injEq, Nat.one_mul, Nat.add_comm]
  exact eq_comm

theorem lookup_zip_range' (graph : Run Nat) (k q : Nat) :
    (graph.zip (List.range' k graph.length)).lookup q = (graph.idxOf? q).map (· + k) := by
  induction graph generalizing k with
  | nil => rfl
  | cons p graph ih =>
    rw [List.length_cons, List.range'_succ, List.zip_cons_cons, List.lookup_cons, ih,
      List.idxOf?_cons]
    by_cases h : p = q
    · simp [h]
    · simp only [beq_false_of_ne h, beq_false_of_ne (Ne.symm h)]
      cases graph.idxOf? q with
      | none => rfl
      | some i => exact congrArg some (Nat.succ_add_eq_add_succ i k).symm

end Places

theorem State.targets_shift (s : Nfa.State) (k : Nat) (l : Label) :
    (s.shift k).targets l = (s.targets l).map (· + k) := by
  rw [State.targets, State.shift, List.filterMap_map, State.targets, List.map_filterMap]
  congr 1
  funext e
  simp only [Function.comp_apply]
  split <;> rfl

/-- On its own, a state of the run leads to the places of the states to which it leads. -/
theorem targets_bare {i q : Nat} (hq : n.graph[i]? = some q) (l : Label) :
    (n.bare.state i).targets l = ((n.state q).targets l).filterMap n.graph.idxOf? := by
  rw [state_bare, hq, Option.map_some, Option.getD_some, State.targets, State.targets,
    List.filterMap_filterMap, List.filterMap_filterMap]
  congr 1
  funext e
  by_cases hl : e.1 = l
  · cases hr : n.graph.idxOf? e.2 <;> simp [hl, hr]
  · cases n.graph.idxOf? e.2 <;> simp [hl]

theorem run_copyInto (n source : Nfa) :
    (n.copyInto source).2 = List.range' n.size source.graph.length := by
  show (List.range source.graph.length).map (· + n.size) = _
  rw [List.range'_eq_map_range]
  exact List.map_congr_left fun i _ => Nat.add_comm i n.size

theorem copyOf_copyInto (h : source.graph.Nodup) (n : Nfa) :
    n.CopyOf source (n.copyInto source).1 (n.copyInto source).2 := by
  have hnew (i : Nat) : (n.copyInto source).1.state (i + n.size) =
      (source.bare.state i).shift n.size := state_beside_right n source.bare i
  rw [run_copyInto]
  refine .of_targets h ?_ (fun q c hqc l => ?_) (fun c hc => ?_)
    (fun q => state_beside_left n source.bare) rfl
  · show (n.beside source.bare).size = _
    rw [size_beside, size_bare]
  · obtain ⟨i, hq, rfl⟩ := mem_zip_range'_iff.1 hqc
    rw [hnew, State.targets_shift, targets_bare hq, List.map_filterMap]
    simp only [lookup_zip_range']
  · obtain ⟨i, rfl⟩ := Nat.exists_eq_add_of_le' hc
    rw [hnew]
    exact owners_bare source i

/-! ## The copy made in two passes -/

/-- Adds a state for each place of a run, and lists the states added. -/
def addCopies (n : Nfa) (graph : Run Nat) : Nfa × Run Nat :=
  graph.foldl (fun (m, run) _ => (m.addState, run ++ [m.size])) (n, [])

/-- The edges of a state to states with copies, as edges to the copies, label by label. -/
def State.copiedEdges (copy? : Nat → Option Nat) (s : Nfa.State) : List (Label × Nat) :=
  s.labels.toList.flatMap fun l => ((s.targets l).filterMap copy?).map fun d => (l, d)

/-- Adds edges from state `c`, one by one. -/
def addEdges (m : Nfa) (c : Nat) (edges : List (Label × Nat)) : Nfa :=
  edges.foldl (fun m e => m.addEdge c e.1 e.2) m

/-- Adds to each copy among `pairs` the edges that are given for its original. -/
def connect (m : Nfa) (edgesOf : Nat → List (Label × Nat)) (pairs : List (Nat × Nat)) : Nfa :=
  pairs.foldl (fun m (q, c) => m.addEdges c (edgesOf q)) m

/-- Copies the finished automaton `source` into the arena of `n` in two passes: the first adds a state
for each place of the run, the second the edges to those states of the run that have copies. -/
def copyInPasses (n source : Nfa) : Nfa × Run Nat :=
  let (m, run) := n.addCopies source.graph
  let pairs := source.graph.zip run
  (m.connect (fun q => (source.state q).copiedEdges fun r => pairs.lookup r) pairs, run)

/-- The first pass adds new states, and nothing else. -/
theorem addCopies_spec (n : Nfa) (graph : Run Nat) :
    (n.addCopies graph).2 = List.range' n.size graph.length ∧
      (n.addCopies graph).1.size = n.size + graph.length ∧
      (n.addCopies graph).1.graph = n.graph ∧ ∀ q, (n.addCopies graph).1.state q = n.state q := by
  induction graph using List.reverseRecOn with
  | nil => exact ⟨rfl, rfl, rfl, fun _ => rfl⟩
  | append_singleton graph q ih =>
    obtain ⟨hrun, hsize, hgraph, hstate⟩ := ih
    have hstep : n.addCopies (graph ++ [q]) = ((n.addCopies graph).1.addState,
        (n.addCopies graph).2 ++ [(n.addCopies graph).1.size]) := List.foldl_concat ..
    rw [hstep, List.length_append, List.length_singleton]
    refine ⟨?_, ?_, hgraph, fun q => ?_⟩
    · rw [hrun, hsize, List.range'_concat, Nat.one_mul]
    · rw [size_addState, hsize, Nat.add_assoc]
    · rw [state_addState, hstate]

@[simp]
theorem size_addEdges (m : Nfa) (c : Nat) (edges : List (Label × Nat)) :
    (m.addEdges c edges).size = m.size := by
  induction edges generalizing m with
  | nil => rfl
  | cons e edges ih => exact (ih _).trans (size_addEdge ..)

@[simp]
theorem graph_addEdges (m : Nfa) (c : Nat) (edges : List (Label × Nat)) :
    (m.addEdges c edges).graph = m.graph := by
  induction edges generalizing m with
  | nil => rfl
  | cons e edges ih => exact ih _

/-- New edges are added behind those there are. -/
theorem state_addEdges {m : Nfa} {c : Nat} (edges : List (Label × Nat)) (hc : c < m.size)
    (hedges : ((m.state c).edges ++ edges).Nodup) (q : Nat) : (m.addEdges c edges).state q =
      if q = c then { m.state q with edges := (m.state q).edges ++ edges } else m.state q := by
  induction edges generalizing m with
  | nil => simp [addEdges]
  | cons e edges ih =>
    have hnot : e ∉ (m.state c).edges := fun hmem =>
      List.disjoint_of_nodup_append hedges hmem List.mem_cons_self
    have hadd (q : Nat) : (m.addEdge c e.1 e.2).state q =
        if q = c then { m.state q with edges := (m.state q).edges ++ [e] } else m.state q := by
      rw [state_addEdge]
      by_cases hq : q = c
      · subst hq
        rw [if_pos ⟨rfl, hc⟩, if_pos rfl, State.addEdge, if_neg hnot]
      · rw [if_neg fun h => hq h.1, if_neg hq]
    have hstep := ih (m := m.addEdge c e.1 e.2) (by rwa [size_addEdge]) (by
      rw [hadd, if_pos rfl]
      simpa using hedges)
    refine hstep.trans ?_
    rw [hadd]
    by_cases hq : q = c <;> simp [hq]

/-- The second pass adds to each copy its edges, and changes no other state. -/
theorem state_connect (edgesOf : Nat → List (Label × Nat)) {pairs : List (Nat × Nat)} {m : Nfa}
    (hnodup : (pairs.map Prod.snd).Nodup) (hnew : ∀ p ∈ pairs, p.2 < m.size ∧ m.state p.2 = {})
    (hedges : ∀ p ∈ pairs, (edgesOf p.1).Nodup) :
    (∀ p ∈ pairs, (m.connect edgesOf pairs).state p.2 = { edges := edgesOf p.1 }) ∧
      ∀ c, c ∉ pairs.map Prod.snd → (m.connect edgesOf pairs).state c = m.state c := by
  induction pairs generalizing m with
  | nil => exact ⟨fun p hp => absurd hp List.not_mem_nil, fun c _ => rfl⟩
  | cons p pairs ih =>
    obtain ⟨hp, hnodup⟩ := List.nodup_cons.1 hnodup
    obtain ⟨⟨hlt, hempty⟩, hnew⟩ := List.forall_mem_cons.1 hnew
    obtain ⟨hfirst, hedges⟩ := List.forall_mem_cons.1 hedges
    have hadd := state_addEdges (edgesOf p.1) hlt (by rwa [hempty, List.nil_append])
    have hother {c : Nat} (hc : c ≠ p.2) : (m.addEdges p.2 (edgesOf p.1)).state c = m.state c := by
      rw [hadd, if_neg hc]
    obtain ⟨hcopies, hothers⟩ := ih (m := m.addEdges p.2 (edgesOf p.1)) hnodup (fun r hr => by
      have hne : r.2 ≠ p.2 := fun heq => hp (heq ▸ List.mem_map_of_mem hr)
      rw [size_addEdges, hother hne]
      exact hnew r hr) hedges
    refine ⟨List.forall_mem_cons.2 ⟨?_, hcopies⟩, fun c hc => ?_⟩
    · refine (hothers p.2 hp).trans ?_
      rw [hadd, if_pos rfl, hempty]
      rfl
    · rw [List.map_cons, List.mem_cons, not_or] at hc
      exact (hothers c hc.2).trans (hother hc.1)

@[simp]
theorem size_connect (m : Nfa) (edgesOf : Nat → List (Label × Nat)) (pairs : List (Nat × Nat)) :
    (m.connect edgesOf pairs).size = m.size := by
  induction pairs generalizing m with
  | nil => rfl
  | cons p pairs ih => exact (ih _).trans (size_addEdges ..)

@[simp]
theorem graph_connect (m : Nfa) (edgesOf : Nat → List (Label × Nat)) (pairs : List (Nat × Nat)) :
    (m.connect edgesOf pairs).graph = m.graph := by
  induction pairs generalizing m with
  | nil => rfl
  | cons p pairs ih => exact (ih _).trans (graph_addEdges ..)

theorem flatMap_ite_eq {β : Type} {labels : List Label} (h : labels.Nodup) (l : Label) (bs : List β) :
    (labels.flatMap fun k => if k = l then bs else []) = if l ∈ labels then bs else [] := by
  induction labels with
  | nil => rfl
  | cons k labels ih =>
    obtain ⟨hk, hlabels⟩ := List.nodup_cons.1 h
    rw [List.flatMap_cons, ih hlabels]
    by_cases hkl : k = l
    · subst hkl
      simp [hk]
    · simp [hkl, Ne.symm hkl]

/-- Label by label, the edges to copies are those of the original in order. -/
theorem State.targets_copiedEdges (copy? : Nat → Option Nat) (s : Nfa.State) (l : Label) :
    ({ edges := s.copiedEdges copy? } : Nfa.State).targets l = (s.targets l).filterMap copy? := by
  have hlabel (k : Label) : (((s.targets k).filterMap copy?).map fun d => (k, d)).filterMap
      (fun e => if e.1 = l then some e.2 else none) =
        if k = l then (s.targets l).filterMap copy? else [] := by
    rw [List.filterMap_map]
    by_cases hkl : k = l
    · subst hkl
      simp
    · simp [hkl]
  have hnone (hl : l ∉ s.labels.toList) : s.targets l = [] := by
    refine List.eq_nil_iff_forall_not_mem.2 fun r hr => hl ?_
    exact SortedSet.mem_ofList.2 (List.mem_map.2 ⟨_, mem_targets.1 hr, rfl⟩)
  rw [State.targets, State.copiedEdges, List.filterMap_flatMap]
  simp only [hlabel]
  rw [flatMap_ite_eq s.labels.nodup_toList]
  split
  · rfl
  · next hl => rw [hnone hl, List.filterMap_nil]

theorem State.nodup_copiedEdges {copy? : Nat → Option Nat} {s : Nfa.State} (h : s.edges.Nodup)
    (hcopy : ∀ q r c, copy? q = some c → copy? r = some c → q = r) :
    (s.copiedEdges copy?).Nodup := by
  have htargets (l : Label) : (s.targets l).Nodup := by
    refine h.filterMap fun e e' r he he' => ?_
    rw [Option.mem_def, Option.ite_none_right_eq_some, Option.some.injEq] at he he'
    exact Prod.ext (he.1.trans he'.1.symm) (he.2.trans he'.2.symm)
  rw [copiedEdges, List.nodup_flatMap]
  refine ⟨fun l _ => ?_, s.labels.nodup_toList.imp fun {l k} hne => ?_⟩
  · exact ((htargets l).filterMap hcopy).map fun _ _ heq => congrArg Prod.snd heq
  · intro e hl hk
    obtain ⟨d, -, rfl⟩ := List.mem_map.1 hl
    obtain ⟨d', -, heq⟩ := List.mem_map.1 hk
    exact hne (congrArg Prod.fst heq).symm

theorem copyOf_copyInPasses (h : source.graph.Nodup)
    (hedges : ∀ q ∈ source.graph, (source.state q).edges.Nodup) (n : Nfa) :
    n.CopyOf source (n.copyInPasses source).1 (n.copyInPasses source).2 := by
  obtain ⟨hrun, hsize, hgraph, hstate⟩ := n.addCopies_spec source.graph
  unfold copyInPasses
  generalize n.addCopies source.graph = added at hrun hsize hgraph hstate ⊢
  obtain ⟨m, run⟩ := added
  dsimp only at hrun hsize hgraph hstate ⊢
  have hlength : run.length = source.graph.length := by rw [hrun, List.length_range']
  have hcopies : (source.graph.zip run).map Prod.snd = run := List.map_snd_zip hlength.le
  have hnodup : run.Nodup := hrun ▸ List.nodup_range' 1
  have hnew (c : Nat) (hc : n.size ≤ c) : m.state c = {} := by rw [hstate, state_of_size_le hc]
  have hmem (c : Nat) : c ∈ run ↔ n.size ≤ c ∧ c < m.size := by rw [hrun, hsize, List.mem_range'_1]
  have hplaces : ∀ p ∈ source.graph.zip run, p.2 < m.size ∧ m.state p.2 = {} := fun p hp => by
    have hrange := (hmem p.2).1 (List.of_mem_zip hp).2
    exact ⟨hrange.2, hnew p.2 hrange.1⟩
  have honce : ∀ p ∈ source.graph.zip run,
      ((source.state p.1).copiedEdges fun r => (source.graph.zip run).lookup r).Nodup := fun p hp => by
    refine State.nodup_copiedEdges (hedges p.1 (List.of_mem_zip hp).1) fun q r c hq hr => ?_
    rw [lookup_zip_iff h hlength] at hq hr
    exact original_unique hnodup hlength hq hr
  obtain ⟨hadded, hothers⟩ := state_connect
    (fun q => (source.state q).copiedEdges fun r => (source.graph.zip run).lookup r)
    (hcopies.symm ▸ hnodup) hplaces honce
  rw [hcopies] at hothers
  subst hrun
  refine .of_targets h (by rw [size_connect, hsize]) (fun q c hqc l => ?_) (fun c hc => ?_)
    (fun q hq => ?_) (by rw [graph_connect, hgraph])
  · rw [hadded _ hqc, State.targets_copiedEdges]
  · by_cases hcopy : c ∈ List.range' n.size source.graph.length
    · rw [← hcopies] at hcopy
      obtain ⟨p, hp, rfl⟩ := List.mem_map.1 hcopy
      rw [hadded p hp]
    · rw [hothers c hcopy, hnew c hc]
  · have hold : q ∉ List.range' n.size source.graph.length := fun hcopy =>
      absurd ((hmem q).1 hcopy).1 (Nat.not_le.2 hq)
    rw [hothers q hold, hstate]

/-- For every arena and every automaton whose run lists no state twice: what `copyInto` places in the
arena is a copy of that automaton, and so is what two passes place there, if no state of the run has
an edge twice. -/
theorem copyInto_copies (h : source.graph.Nodup) (n : Nfa) :
    n.CopyOf source (n.copyInto source).1 (n.copyInto source).2 ∧
      ((∀ q ∈ source.graph, (source.state q).edges.Nodup) →
        n.CopyOf source (n.copyInPasses source).1 (n.copyInPasses source).2) :=
  ⟨copyOf_copyInto h n, fun hedges => copyOf_copyInPasses h hedges n⟩

/-- A cycle of two states that lead on to a third, which is not in the run, is copied twice into an
arena with a state that leads to itself. The run lists its states in falling order. -/
theorem copyInto_copies_cycle :
    let source : Nfa :=
      { states := #[{ edges := [(.char 'a', 2), (.any, 1), (.char 'a', 0)] }, {},
          { edges := [(.epsilon, 0), (.char 'b', 1)], owners := .ofList [⟨0, "loop"⟩] }]
        graph := [2, 0] }
    let n := (Nfa.empty.addState.addEdge 0 .any 0).accept 0 ⟨1, "any"⟩
    let once := (n.copyInto source).1
    source.graph.Nodup ∧ (∀ q ∈ source.graph, (source.state q).edges.Nodup) ∧
      n.CopyOf source once [1, 2] ∧ once.CopyOf source (once.copyInto source).1 [3, 4] ∧
      n.CopyOf source (n.copyInPasses source).1 [1, 2] ∧
      (once.state 2).targets (.char 'a') = [1, 2] ∧ once.Path 1 ['a', 'a'] 1 := by
  intro source n once
  have h : source.graph.Nodup := by decide
  have hedges : ∀ q ∈ source.graph, (source.state q).edges.Nodup := by decide
  have hrun : (n.copyInto source).2 = [1, 2] ∧ (once.copyInto source).2 = [3, 4] ∧
      (n.copyInPasses source).2 = [1, 2] := by decide +kernel
  obtain ⟨hcopy, hpasses⟩ := copyInto_copies h n
  obtain ⟨hagain, -⟩ := copyInto_copies h once
  have hcycle : Predictive.Path source.RunEdge 2 ['a', 'a'] 2 :=
    .skip (r := 0) (by decide) (.read (r := 0) (l := .char 'a') (by decide) (.inr rfl)
      (.single (l := .char 'a') (by decide) (.inr rfl)))
  rw [hrun.1] at hcopy
  rw [hrun.2.1] at hagain
  have hpasses := hpasses hedges
  rw [hrun.2.2] at hpasses
  exact ⟨h, hedges, hcopy, hagain, hpasses, hcopy.targets 0 2 (by decide) _,
    (hcopy.paths 2 1 2 1 (by decide) (by decide) _).2 hcycle⟩

end Predictive.Nfa
