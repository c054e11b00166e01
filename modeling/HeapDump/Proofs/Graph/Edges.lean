import HeapDump.Proofs.Graph.Discovery
import HeapDump.Proofs.Graph.TopologicalOrder

/-! The edges of a traversal.  Every edge of every reachable node is looked at once, those from the
super-root to the roots included, and the nodes are found in the order in which they first stand at the
end of an edge.  While the search goes on, the edges looked at and those left in the frames are together
the edges of the nodes found. -/

namespace HeapDump

namespace RootedGraph

variable {ε : Type}

/-- The edges from the super-root, one for each mention of a root, and the edges from some nodes. -/
def edgesFrom (graph : RootedGraph ε) (nodes : List Ident) : List (Option Ident × Ident) :=
  graph.roots.map (none, ·) ++ nodes.flatMap fun u => (graph.next u).map (some u, ·)

theorem edgesFrom_append_singleton (graph : RootedGraph ε) (nodes : List Ident) (v : Ident) :
    graph.edgesFrom (nodes ++ [v]) = graph.edgesFrom nodes ++ (graph.next v).map (some v, ·) := by
  rw [edgesFrom, edgesFrom, List.flatMap_append, List.flatMap_singleton, List.append_assoc]

end RootedGraph

namespace Traversal

variable {ε : Type} {graph : RootedGraph ε} {state state' : Traversal × List Frame}

/-- The first edge that leads to `v` comes from `start`. -/
def MetFrom (t : Traversal) (start : Option Ident) (v : Ident) : Prop :=
  t.edges.toList.find? (·.2 = v) = some (start, v)

theorem MetFrom.mem_edges {t : Traversal} {start : Option Ident} {v : Ident} (h : t.MetFrom start v) :
    (start, v) ∈ t.edges :=
  Array.mem_toList_iff.mp (List.mem_of_find?_eq_some h)

/-- The edges that are still to be looked at. -/
def edgesLeft (stack : List Frame) : List (Option Ident × Ident) :=
  stack.flatMap fun frame => frame.left.map (frame.start, ·)

/-- What a search under way has kept. -/
structure Kept (graph : RootedGraph ε) (state : Traversal × List Frame) : Prop where
  records : Records state.1
  found : state.1.found.toList = (state.1.edges.toList.map (·.2)).eraseDups
  edges : (state.1.edges.toList ++ edgesLeft state.2).Perm (graph.edgesFrom state.1.found.toList)
  /-- A node is met from one further on in the line. -/
  line : (state.1.line (pending state.2)).Pairwise fun v u => ¬state.1.MetFrom (some v) u
  other : ∀ v, ¬state.1.MetFrom (some v) v

theorem Kept.mem_seen (kept : Kept graph state) {v : Ident} :
    v ∈ state.1.seen ↔ v ∈ state.1.edges.toList.map (·.2) := by
  rw [kept.records, kept.found, List.mem_eraseDups]

theorem metFrom_look {t : Traversal} {start s : Option Ident} {v w : Ident} :
    (t.look start v).MetFrom s w ↔
      t.MetFrom s w ∨ v ∉ t.edges.toList.map (·.2) ∧ w = v ∧ s = start := by
  have hnone : t.edges.toList.find? (·.2 = w) = none ↔ w ∉ t.edges.toList.map (·.2) := by
    simp only [List.find?_eq_none, decide_eq_true_eq, List.mem_map, not_exists, not_and]
  rw [MetFrom, MetFrom, look, Array.toList_push, List.find?_append]
  cases hfind : t.edges.toList.find? (·.2 = w) with
  | some edge =>
    have hmem : w ∈ t.edges.toList.map (·.2) := by
      by_contra hnot
      rw [hnone.mpr hnot] at hfind
      cases hfind
    refine ⟨fun h => .inl h, fun h => h.resolve_right ?_⟩
    rintro ⟨hnew, rfl, -⟩
    exact hnew hmem
  | none =>
    have hnew := hnone.mp hfind
    by_cases hw : v = w
    · subst hw
      simp [hnew, eq_comm]
    · simp [hw, Ne.symm hw]

/-! ### One step more -/

theorem Kept.known {t : Traversal} {start : Option Ident} {v : Ident} {rest : List Ident}
    {stack : List Frame} (kept : Kept graph (t, ⟨start, v :: rest⟩ :: stack)) (hseen : v ∈ t.seen) :
    Kept graph (t.look start v, ⟨start, rest⟩ :: stack) := by
  have hmem : v ∈ t.edges.toList.map (·.2) := kept.mem_seen.mp hseen
  have hmet : ∀ s w, (t.look start v).MetFrom s w ↔ t.MetFrom s w := fun s w => by
    rw [metFrom_look]
    exact or_iff_left fun h => h.1 hmem
  refine ⟨kept.records, ?_, ?_, kept.line.imp fun h => mt (hmet _ _).mp h, fun w => ?_⟩
  · show t.found.toList = _
    rw [kept.found, look, Array.toList_push, List.map_append, List.eraseDups_append]
    simp [List.removeAll, hmem]
  · refine Eq.subst (motive := (List.Perm · _)) ?_ kept.edges
    simp [edgesLeft, look]
  · exact mt (hmet _ _).mp (kept.other w)

/-- A new node is met from the node on top of the stack, which is not finished. -/
theorem Kept.new {t : Traversal} {start : Option Ident} {v : Ident} {rest vs : List Ident}
    {stack : List Frame} (kept : Kept graph (t, ⟨start, v :: rest⟩ :: stack))
    (stands : Stands graph (t, ⟨start, v :: rest⟩ :: stack)) (hnew : v ∉ t.seen)
    (hvs : graph.successors v = .ok vs) :
    Kept graph ((t.look start v).find v, ⟨some v, vs⟩ :: ⟨start, rest⟩ :: stack) := by
  have hends : v ∉ t.edges.toList.map (·.2) := fun h => hnew (kept.mem_seen.mpr h)
  have hline : v ∉ t.line (pending (⟨start, rest⟩ :: stack)) :=
    fun h => hnew ((stands.holds.seen v).mpr h)
  have hmet : ∀ s w, ((t.look start v).find v).MetFrom s w → t.MetFrom s w ∨ w = v ∧ s = start :=
    fun s w h => (metFrom_look.mp h).imp_right (·.2)
  -- Nodes in the line have been met before, and not from the new one.
  have hbefore : (t.line (pending (⟨start, rest⟩ :: stack))).Pairwise
      fun w u => ¬((t.look start v).find v).MetFrom (some w) u := by
    refine kept.line.imp_of_mem fun _ hu hnot h => (hmet _ _ h).elim hnot ?_
    rintro ⟨rfl, -⟩
    exact hline hu
  obtain ⟨hfinished, hpending, hcross⟩ := List.pairwise_append.mp hbefore
  obtain ⟨-, -, hdisjoint⟩ := List.nodup_append'.mp stands.holds.nodup
  refine ⟨kept.records.find v, ?_, ?_, ?_, fun w hw => ?_⟩
  · show (t.found.push v).toList = ((t.edges.push (start, v)).toList.map (·.2)).eraseDups
    rw [Array.toList_push, Array.toList_push, kept.found, List.map_append, List.eraseDups_append]
    simp [List.removeAll, hends, List.eraseDups_cons]
  · show ((t.edges.push (start, v)).toList ++ _).Perm (graph.edgesFrom (t.found.push v).toList)
    have hnext : graph.next v = vs := by rw [RootedGraph.next, hvs]
    rw [Array.toList_push, Array.toList_push, RootedGraph.edgesFrom_append_singleton, hnext]
    refine List.Perm.trans ?_ (kept.edges.append_right _)
    simp only [edgesLeft, List.flatMap_cons, List.map_cons, List.append_assoc, List.cons_append,
      List.nil_append]
    exact ((List.perm_append_comm.trans (by rw [List.append_assoc])).cons _).append_left _
  · rw [pending_some, line_find, List.pairwise_append, List.pairwise_cons]
    refine ⟨hfinished, ⟨fun u hu h => ?_, hpending⟩, fun w hw u hu => ?_⟩
    · rcases hmet _ _ h with h | ⟨rfl, -⟩
      · exact hline ((stands.holds.edge _ _ h.mem_edges).2 v rfl)
      · exact hline (List.mem_append_right _ hu)
    · rcases List.mem_cons.mp hu with rfl | hu
      · intro h
        rcases hmet _ _ h with h | ⟨-, hstart⟩
        · exact hends (List.mem_map_of_mem (Array.mem_toList_iff.mpr h.mem_edges))
        · exact hdisjoint hw (mem_pending hstart.symm)
      · exact hcross w hw u hu
  · rcases hmet _ _ hw with h | ⟨rfl, hstart⟩
    · exact kept.other w h
    · exact hline (List.mem_append_right _ (mem_pending hstart.symm))

theorem Kept.done {t : Traversal} {v : Ident} {stack : List Frame}
    (kept : Kept graph (t, ⟨some v, []⟩ :: stack)) : Kept graph (t.finish v, stack) := by
  refine ⟨kept.records, kept.found, kept.edges, ?_, kept.other⟩
  rw [line_finish]
  exact kept.line

theorem kept_empty (graph : RootedGraph ε) : Kept graph (empty, [⟨none, graph.roots⟩]) where
  records := by simp [Records, empty]
  found := rfl
  edges := by simp [edgesLeft, empty, RootedGraph.edgesFrom]
  line := .nil
  other v h := by cases h

theorem Kept.step (kept : Kept graph state) (stands : Stands graph state)
    (h : Step graph state state') : Kept graph state' := by
  cases h with
  | known hseen => exact kept.known hseen
  | new hnew hvs => exact kept.new stands hnew hvs
  | done => exact kept.done

theorem kept_of_steps (h : Steps graph (empty, [⟨none, graph.roots⟩]) state) : Kept graph state := by
  induction h with
  | refl => exact kept_empty graph
  | tail hsteps hstep ih => exact ih.step ((stands_empty graph).steps hsteps) hstep

/-! ### The whole traversal -/

theorem kept_of_ofGraph {t : Traversal} (h : ofGraph graph = .ok t) : Kept graph (t, [⟨none, []⟩]) := by
  have hsearch := ofGraph_comesTo graph
  rw [h] at hsearch
  exact kept_of_steps hsearch

theorem finds_of_ofGraph {t : Traversal} (h : ofGraph graph = .ok t) :
    Finds graph.next [] graph.roots t.found.toList := by
  have hempty : Records empty := by simp [Records, empty]
  exact (foldlM_finds (fun _ _ _ hv hlt hrecords hvisit => visit_finds hv hlt hrecords hvisit)
    graph.roots_mem (Nat.lt_succ_of_le List.countP_le_length) hempty h).2

theorem finished_perm_found {t : Traversal} (h : ofGraph graph = .ok t) :
    t.finished.toList.Perm t.found.toList := by
  have hleads := ofGraph_leadsTo graph
  rw [h] at hleads
  obtain ⟨holds, -, -⟩ := hleads
  have hnodup := holds.nodup
  rw [line, List.append_nil] at hnodup
  refine (List.perm_ext_iff_of_nodup hnodup ((finds_of_ofGraph h).nodup List.nodup_nil)).mpr fun v => ?_
  rw [← (kept_of_ofGraph h).records v, holds.seen, line, List.append_nil]

/-- The number of a node, counted in the order in which the nodes were found. -/
def slot (t : Traversal) (v : Ident) : Nat := t.found.toList.idxOf v

/-- The edges looked at, between slots. -/
def slotEdges (t : Traversal) : List (Option Nat × Nat) :=
  t.edges.toList.map fun (start, v) => (start.map t.slot, t.slot v)

theorem map_slot_found {t : Traversal} (h : t.found.toList.Nodup) :
    t.found.toList.map t.slot = List.range t.found.size := by
  refine List.ext_getElem (by simp) fun i hi _ => ?_
  rw [List.getElem_map, List.getElem_range, slot, h.idxOf_getElem]

/-- Of the edges of a node none is left out and none is looked at twice. -/
theorem slotEdges_perm {t : Traversal} (h : ofGraph graph = .ok t) :
    t.slotEdges.Perm (graph.roots.map (fun r => (none, t.slot r)) ++
      t.found.toList.flatMap fun u => (graph.next u).map fun v => (some (t.slot u), t.slot v)) := by
  have hedges := (kept_of_ofGraph h).edges
  rw [edgesLeft, List.flatMap_singleton, List.map_nil, List.append_nil] at hedges
  refine (hedges.map _).trans (List.Perm.of_eq ?_)
  simp [RootedGraph.edgesFrom, List.map_flatMap, Function.comp_def]

theorem exists_metFrom {t : Traversal} (h : ofGraph graph = .ok t) {v : Ident}
    (hv : v ∈ t.found.toList) : ∃ start, t.MetFrom start v := by
  rw [(kept_of_ofGraph h).found, List.mem_eraseDups] at hv
  obtain ⟨edge, hedge, hend⟩ := List.mem_map.mp hv
  have hsome : (t.edges.toList.find? (·.2 = v)).isSome :=
    List.find?_isSome.mpr ⟨edge, hedge, decide_eq_true hend⟩
  obtain ⟨⟨start, w⟩, hfirst⟩ := Option.isSome_iff_exists.mp hsome
  have hw := List.find?_some hfirst
  obtain rfl : w = v := of_decide_eq_true hw
  exact ⟨start, hfirst⟩

/-- A node comes after the one from which it was met. -/
theorem idxOf_lt_of_metFrom {t : Traversal} (h : ofGraph graph = .ok t) (covers : Covers graph t)
    {u v : Ident} (hmet : t.MetFrom (some u) v) : t.order.idxOf u < t.order.idxOf v := by
  have kept := kept_of_ofGraph h
  have horder : t.order.Pairwise fun w s => ¬t.MetFrom (some s) w := by
    have hline := kept.line
    rw [line, show pending [⟨none, []⟩] = [] from rfl, List.append_nil] at hline
    exact List.pairwise_reverse.mpr hline
  obtain ⟨hedge, hfrom⟩ := (covers.mem_edges (some u) v).mp hmet.mem_edges
  have hu := (covers.mem_order u).mpr (hfrom u rfl)
  have hv := (covers.mem_order v).mpr (hedge.reachable hfrom)
  refine idxOf_lt_of_pairwise horder hu hv ?_ (not_not_intro hmet)
  rintro rfl
  exact kept.other u hmet

end Traversal

namespace RootedGraph

variable {ε : Type}

/-- A traversal of a graph none of whose reachable nodes fails. -/
theorem traversal_of_total (graph : RootedGraph ε)
    (htotal : ∀ u, graph.Reachable u → ∃ vs, graph.successors u = .ok vs) :
    ∃ t, Traversal.ofGraph graph = .ok t ∧
      (t.found.toList.Nodup ∧ (∀ v, v ∈ t.found.toList ↔ graph.Reachable v) ∧
        t.found.toList = (t.edges.toList.map (·.2)).eraseDups ∧
        Finds graph.next [] graph.roots t.found.toList) ∧
      (t.finished.toList.map t.slot).Perm (List.range t.found.size) ∧
      t.slotEdges.Perm (graph.roots.map (fun r => (none, t.slot r)) ++
        t.found.toList.flatMap fun u => (graph.next u).map fun v => (some (t.slot u), t.slot v)) ∧
      ∀ v ∈ t.found.toList, (t.MetFrom none v ∧ v ∈ graph.roots) ∨
        ∃ u, t.MetFrom (some u) v ∧ v ∈ graph.next u ∧ t.order.idxOf u < t.order.idxOf v := by
  obtain ⟨t, ht, covers⟩ := Traversal.ofGraph_ok htotal
  have hfinds := Traversal.finds_of_ofGraph ht
  have hnodup : t.found.toList.Nodup := hfinds.nodup List.nodup_nil
  have hfinished := Traversal.finished_perm_found ht
  refine ⟨t, ht, ⟨hnodup, fun v => ?_, (Traversal.kept_of_ofGraph ht).found, hfinds⟩, ?_,
    Traversal.slotEdges_perm ht, fun v hv => ?_⟩
  · rw [← hfinished.mem_iff, ← covers.mem_order, Traversal.order, List.mem_reverse]
  · rw [← Traversal.map_slot_found hnodup]
    exact hfinished.map _
  · obtain ⟨start, hmet⟩ := Traversal.exists_metFrom ht hv
    obtain ⟨hedge, -⟩ := (covers.mem_edges start v).mp hmet.mem_edges
    cases start with
    | none => exact .inl ⟨hmet, hedge⟩
    | some u => exact .inr ⟨u, hmet, mem_next.mpr hedge, Traversal.idxOf_lt_of_metFrom ht covers hmet⟩

/-- A root given twice, two edges from it to one node, a loop, and an edge from a node out of reach. -/
def tangled : RootedGraph String :=
  .ofEdges [⟨1⟩, ⟨3⟩, ⟨1⟩]
    [(⟨1⟩, ⟨2⟩), (⟨2⟩, ⟨1⟩), (⟨2⟩, ⟨2⟩), (⟨2⟩, ⟨3⟩), (⟨1⟩, ⟨2⟩), (⟨4⟩, ⟨1⟩)] fun _ => none

theorem traversal_of_total_tangled :
    (∀ u, tangled.Reachable u → ∃ vs, tangled.successors u = .ok vs) ∧
      ∃ t, Traversal.ofGraph tangled = .ok t ∧
        (t.found.toList = [⟨1⟩, ⟨2⟩, ⟨3⟩] ∧ ∀ v, v ∈ t.found.toList ↔ tangled.Reachable v) ∧
        (t.finished.toList.map t.slot).Perm (List.range 3) ∧
        [(none, 0), (some 0, 1), (some 1, 0), (some 1, 1), (some 1, 2), (some 0, 1), (none, 2),
            (none, 0)].Perm
          (tangled.roots.map (fun r => (none, t.slot r)) ++ t.found.toList.flatMap fun u =>
            (tangled.next u).map fun v => (some (t.slot u), t.slot v)) ∧
        t.MetFrom (some ⟨2⟩) ⟨3⟩ ∧ t.order.idxOf ⟨2⟩ < t.order.idxOf ⟨3⟩ := by
  have htotal : ∀ u, tangled.Reachable u → ∃ vs, tangled.successors u = .ok vs :=
    fun _ _ => ⟨_, rfl⟩
  obtain ⟨t, ht, ⟨-, hmem, -, -⟩, hfinished, hedges, hmet⟩ := traversal_of_total tangled htotal
  have hfacts : (Traversal.ofGraph tangled).toOption.all fun t =>
      decide (t.found.toList = [⟨1⟩, ⟨2⟩, ⟨3⟩]) &&
      decide (t.slotEdges = [(none, 0), (some 0, 1), (some 1, 0), (some 1, 1), (some 1, 2),
        (some 0, 1), (none, 2), (none, 0)]) &&
      decide (t.edges.toList.find? (·.2 = ⟨3⟩) = some (some ⟨2⟩, ⟨3⟩)) := by
    decide +kernel
  rw [ht] at hfacts
  simp only [Except.toOption, Option.all_some, Bool.and_eq_true, decide_eq_true_eq] at hfacts
  obtain ⟨⟨hfound, hlisted⟩, hthrough⟩ := hfacts
  have hsize : t.found.size = 3 := by rw [← Array.length_toList, hfound]; rfl
  rw [hsize] at hfinished
  rw [hlisted] at hedges
  refine ⟨htotal, t, ht, ⟨hfound, hmem⟩, hfinished, hedges, hthrough, ?_⟩
  -- The node was met from the second one, not as a root.
  rcases hmet ⟨3⟩ (by simp [hfound]) with ⟨hroot, -⟩ | ⟨u, hu, -, hlt⟩
  · cases hthrough.symm.trans hroot
  · cases hthrough.symm.trans hu
    exact hlt

end RootedGraph

end HeapDump
