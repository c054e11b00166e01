import HeapDump.Proofs.Graph.Dominators

/-! The order in which a search finds nodes, and the failure that it reports.  `Finds` is depth first search
on lists: a node that has been found is passed over, and a new one is gone through before the search
goes on.  A node that fails leads nowhere, so this search comes to all that can be reached through nodes
that do not fail.  A traversal finds the same nodes in the same order, up to the first one that fails,
and reports that failure. -/

namespace HeapDump

/-! ### Depth first search -/

/-- A search that has found some nodes and goes through a list of targets comes to have found more.  The
nodes stand in the order in which they are found. -/
inductive Finds (next : Ident → List Ident) : List Ident → List Ident → List Ident → Prop
  | nil {found : List Ident} : Finds next found [] found
  | known {found found' targets : List Ident} {v : Ident} (h : v ∈ found)
    (hrest : Finds next found targets found') : Finds next found (v :: targets) found'
  | new {found middle found' targets : List Ident} {v : Ident} (h : v ∉ found)
    (hinner : Finds next (found ++ [v]) (next v) middle) (hrest : Finds next middle targets found') :
    Finds next found (v :: targets) found'

namespace Finds

variable {next : Ident → List Ident} {found middle found' found'' targets : List Ident} {v : Ident}

theorem cons (h : Finds next found [v] middle) (hrest : Finds next middle targets found') :
    Finds next found (v :: targets) found' := by
  cases h with
  | known hv h =>
    cases h
    exact .known hv hrest
  | new hv hinner h =>
    cases h
    exact .new hv hinner hrest

theorem unique (h : Finds next found targets found') (h' : Finds next found targets found'') :
    found' = found'' := by
  induction h generalizing found'' with
  | nil =>
    cases h'
    rfl
  | known hv _ ih =>
    cases h' with
    | known _ hrest => exact ih hrest
    | new hnot _ _ => exact absurd hv hnot
  | new hnot _ _ ihinner ihrest =>
    cases h' with
    | known hv _ => exact absurd hv hnot
    | new _ hinner hrest =>
      obtain rfl := ihinner hinner
      exact ihrest hrest

/-- Nothing found is given up. -/
theorem isPrefix (h : Finds next found targets found') : found <+: found' := by
  induction h with
  | nil => exact List.prefix_refl _
  | known _ _ ih => exact ih
  | new _ _ _ ihinner ihrest => exact ((List.prefix_append _ _).trans ihinner).trans ihrest

theorem nodup (h : Finds next found targets found') (hfound : found.Nodup) : found'.Nodup := by
  induction h with
  | nil => exact hfound
  | known _ _ ih => exact ih hfound
  | new hnot _ _ ihinner ihrest =>
    refine ihrest (ihinner (hfound.append (List.nodup_singleton _) ?_))
    exact List.disjoint_singleton.mpr hnot

end Finds

namespace RootedGraph

variable {ε : Type} (graph : RootedGraph ε)

/-- The failure of a node whose successors fail. -/
def failure? (v : Ident) : Option ε :=
  match graph.successors v with
  | .ok _ => none
  | .error e => some e

/-- The successors of a node; one that fails leads nowhere. -/
def next (v : Ident) : List Ident :=
  match graph.successors v with
  | .ok vs => vs
  | .error _ => []

variable {graph}

theorem mem_next {u v : Ident} : v ∈ graph.next u ↔ graph.flow.step u v := by
  show _ ↔ ∃ vs, graph.successors u = .ok vs ∧ v ∈ vs
  rw [next]
  cases graph.successors u with
  | error e => simp
  | ok vs => simp

variable (graph)

/-- The graph in which nodes that fail have no successors instead. -/
def quiet : RootedGraph ε where
  nodes := graph.nodes
  roots := graph.roots
  successors u := .ok (graph.next u)
  roots_mem := graph.roots_mem
  successors_mem u vs h v hv := by
    cases h
    obtain ⟨vs, hvs, hv⟩ := mem_next.mp hv
    exact graph.successors_mem u vs hvs v hv

theorem flow_quiet : graph.quiet.flow = graph.flow := by
  have hstep : graph.quiet.flow.step = graph.flow.step := by
    funext u v
    exact propext ((@mem_next ε graph.quiet u v).symm.trans (@mem_next ε graph u v))
  show Flow.mk graph.flow.start graph.quiet.flow.step = _
  rw [hstep]

end RootedGraph

namespace Traversal

variable {ε : Type} {graph : RootedGraph ε}

/-! ### A traversal finds what the search finds -/

/-- What has been found can be looked up. -/
def Records (t : Traversal) : Prop := ∀ v, v ∈ t.seen ↔ v ∈ t.found.toList

theorem Records.find {t : Traversal} (h : Records t) (v : Ident) : Records (t.find v) := by
  intro w
  rw [mem_seen_find, h w, Traversal.find, Array.toList_push, List.mem_append, List.mem_singleton, or_comm]

theorem foldlM_finds {fuel : Nat} {start : Option Ident}
    (hvisit : ∀ t v t', v ∈ graph.nodes → unseen graph.nodes t.seen < fuel → Records t →
      visit graph fuel (t.look start v) v = .ok t' →
      Records t' ∧ Finds graph.next t.found.toList [v] t'.found.toList)
    {targets : List Ident} (htargets : ∀ v ∈ targets, v ∈ graph.nodes) {t t' : Traversal}
    (hfuel : unseen graph.nodes t.seen < fuel) (hrecords : Records t)
    (h : targets.foldlM (fun t v => visit graph fuel (t.look start v) v) t = .ok t') :
    Records t' ∧ Finds graph.next t.found.toList targets t'.found.toList := by
  induction targets generalizing t with
  | nil =>
    cases h
    exact ⟨hrecords, .nil⟩
  | cons v targets ih =>
    obtain ⟨hv, hrest⟩ := List.forall_mem_cons.mp htargets
    rw [List.foldlM_cons] at h
    cases hfirst : visit graph fuel (t.look start v) v with
    | error e =>
      rw [hfirst] at h
      cases h
    | ok middle =>
      rw [hfirst] at h
      obtain ⟨hmiddle, hfinds⟩ := hvisit t v middle hv hfuel hrecords hfirst
      have hless : unseen graph.nodes middle.seen ≤ unseen graph.nodes t.seen :=
        unseen_le fun w hw => (hmiddle w).mpr (hfinds.isPrefix.subset ((hrecords w).mp hw))
      obtain ⟨hlast, hfinds'⟩ := ih hrest (Nat.lt_of_le_of_lt hless hfuel) hmiddle h
      exact ⟨hlast, hfinds.cons hfinds'⟩

theorem visit_finds {fuel : Nat} {start : Option Ident} {t t' : Traversal} {v : Ident}
    (hv : v ∈ graph.nodes) (hfuel : unseen graph.nodes t.seen < fuel) (hrecords : Records t)
    (h : visit graph fuel (t.look start v) v = .ok t') :
    Records t' ∧ Finds graph.next t.found.toList [v] t'.found.toList := by
  induction fuel generalizing start t t' v with
  | zero => omega
  | succ fuel ih =>
    rw [visit] at h
    split at h
    · next hseen =>
      cases h
      exact ⟨hrecords, .known ((hrecords v).mp hseen) .nil⟩
    · next hseen =>
      have hless : unseen graph.nodes ((t.look start v).find v).seen < unseen graph.nodes t.seen :=
        unseen_insert_lt hv hseen
      cases hvs : graph.successors v with
      | error e =>
        rw [hvs] at h
        cases h
      | ok vs =>
        rw [hvs] at h
        change Except.bind (vs.foldlM _ _) _ = _ at h
        have hnext : graph.next v = vs := by rw [RootedGraph.next, hvs]
        cases hfold : vs.foldlM (fun t w => visit graph fuel (t.look (some v) w) w)
            ((t.look start v).find v) with
        | error e =>
          rw [hfold] at h
          cases h
        | ok middle =>
          rw [hfold] at h
          cases h
          have hfind : Records ((t.look start v).find v) := Records.find hrecords v
          obtain ⟨hmiddle, hfinds⟩ := foldlM_finds (fun t w t' hw hlt hr h => ih hw hlt hr h)
            (graph.successors_mem v vs hvs) (by omega) hfind hfold
          refine ⟨hmiddle, .new (fun hmem => hseen ((hrecords v).mpr hmem)) ?_ .nil⟩
          rw [hnext]
          rwa [find, Array.toList_push] at hfinds

/-! ### The first failure -/

/-- A traversal that finds some nodes ends in the failure of the first that fails. -/
def outcome (graph : RootedGraph ε) (found : List Ident) (t : Traversal) : Except ε Traversal :=
  match found.findSome? graph.failure? with
  | some e => .error e
  | none => .ok t

/-- How a search compares with one in which nothing fails. -/
def Compares (graph : RootedGraph ε) (t : Traversal) (answer quiet : Except ε Traversal) : Prop :=
  ∃ t' new, quiet = .ok t' ∧ t'.found.toList = t.found.toList ++ new ∧
    answer = outcome graph new t'

theorem foldlM_compares {fuel : Nat} {start : Option Ident}
    (hvisit : ∀ t v, Compares graph t (visit graph fuel (t.look start v) v)
      (visit graph.quiet fuel (t.look start v) v)) (targets : List Ident) (t : Traversal) :
    Compares graph t (targets.foldlM (fun t v => visit graph fuel (t.look start v) v) t)
      (targets.foldlM (fun t v => visit graph.quiet fuel (t.look start v) v) t) := by
  induction targets generalizing t with
  | nil => exact ⟨t, [], rfl, (List.append_nil _).symm, rfl⟩
  | cons v targets ih =>
    obtain ⟨middle, new, hquiet, hfound, hanswer⟩ := hvisit t v
    obtain ⟨t', new', hquiet', hfound', hanswer'⟩ := ih middle
    refine ⟨t', new ++ new', ?_, by rw [hfound', hfound, List.append_assoc], ?_⟩
    · rw [List.foldlM_cons, hquiet]
      exact hquiet'
    · rw [List.foldlM_cons, hanswer, outcome, outcome, List.findSome?_append]
      cases hfirst : new.findSome? graph.failure? with
      | some e => rfl
      | none => exact hanswer'

theorem visit_compares (graph : RootedGraph ε) (fuel : Nat) (start : Option Ident) (t : Traversal)
    (v : Ident) : Compares graph t (visit graph fuel (t.look start v) v)
      (visit graph.quiet fuel (t.look start v) v) := by
  induction fuel generalizing start t v with
  | zero => exact ⟨t.look start v, [], rfl, (List.append_nil _).symm, rfl⟩
  | succ fuel ih =>
    rw [visit, visit]
    split
    · exact ⟨t.look start v, [], rfl, (List.append_nil _).symm, rfl⟩
    · obtain ⟨t', new, hquiet, hfound, hanswer⟩ :=
        foldlM_compares (fun t w => ih (some v) t w) (graph.next v) ((t.look start v).find v)
      refine ⟨t'.finish v, v :: new, ?_, ?_, ?_⟩
      · show Except.bind ((graph.next v).foldlM _ _) _ = _
        rw [hquiet]
        rfl
      · show t'.found.toList = _
        rw [hfound, find, Array.toList_push, List.append_assoc]
        rfl
      · rw [outcome, List.findSome?_cons, RootedGraph.failure?]
        cases hvs : graph.successors v with
        | error e => rfl
        | ok vs =>
          rw [RootedGraph.next, hvs] at hanswer
          show Except.bind (vs.foldlM _ _) _ = _
          rw [hanswer, outcome]
          cases new.findSome? graph.failure? <;> rfl

/-- A search from the roots, and how the traversal ends that goes with it. -/
theorem ofGraph_outcome (graph : RootedGraph ε) :
    ∃ found t, Finds graph.next [] graph.roots found ∧ (∀ v, v ∈ found ↔ graph.Reachable v) ∧
      ofGraph graph = outcome graph found t := by
  obtain ⟨t, new, hquiet, hfound, hanswer⟩ :=
    foldlM_compares (visit_compares graph (graph.nodes.length + 1) none) graph.roots empty
  have hfuel : unseen graph.nodes empty.seen < graph.nodes.length + 1 :=
    Nat.lt_succ_of_le List.countP_le_length
  have hempty : Records empty := by simp [Records, empty]
  obtain ⟨hrecords, hfinds⟩ := foldlM_finds (fun t v t' hv hlt hr h => visit_finds hv hlt hr h)
    graph.quiet.roots_mem hfuel hempty hquiet
  obtain rfl : t.found.toList = new := hfound
  have hleads := ofGraph_leadsTo graph.quiet
  rw [show ofGraph graph.quiet = .ok t from hquiet] at hleads
  obtain ⟨holds, -, hroots⟩ := hleads
  refine ⟨t.found.toList, t, hfinds, fun v => ?_, hanswer⟩
  have hline : v ∈ t.line [] ↔ v ∈ t.order := by
    rw [line, order, List.append_nil, List.mem_reverse]
  rw [← hrecords, holds.seen, hline, (holds.covers hroots).mem_order, RootedGraph.Reachable,
    RootedGraph.Reachable, RootedGraph.flow_quiet]

end Traversal

namespace RootedGraph

variable {ε : Type} {graph : RootedGraph ε}

theorem findSome?_failure?_eq_none {found : List Ident} (hmem : ∀ v, v ∈ found ↔ graph.Reachable v) :
    found.findSome? graph.failure? = none ↔ graph.Total := by
  rw [List.findSome?_eq_none_iff, Total]
  refine forall_congr' fun v => imp_congr (hmem v) ?_
  rw [failure?]
  cases graph.successors v <;> simp

/-- Both searches succeed if no reachable node fails, and otherwise report the failure of the first node
found that fails. -/
theorem failure_of_search (graph : RootedGraph ε) :
    ∃ found, Finds graph.next [] graph.roots found ∧
      (∀ other, Finds graph.next [] graph.roots other → other = found) ∧
      found.Nodup ∧ (∀ v, v ∈ found ↔ graph.Reachable v) ∧
      (((∃ order, graph.topologicalOrder = .ok order) ↔ graph.Total) ∧
        ((∃ tree, DominatorTree.ofGraph graph = .ok tree) ↔ graph.Total)) ∧
      ∀ e, (graph.topologicalOrder = .error e ↔ found.findSome? graph.failure? = some e) ∧
        (DominatorTree.ofGraph graph = .error e ↔ found.findSome? graph.failure? = some e) := by
  obtain ⟨found, t, hfinds, hmem, houtcome⟩ := Traversal.ofGraph_outcome graph
  refine ⟨found, hfinds, fun other h => h.unique hfinds, hfinds.nodup List.nodup_nil, hmem, ?_, ?_⟩
  · rw [← findSome?_failure?_eq_none hmem, topologicalOrder, DominatorTree.ofGraph, houtcome,
      Traversal.outcome]
    cases found.findSome? graph.failure? with
    | some e => simp [bind, Except.bind]
    | none => simp [bind, Except.bind, pure, Except.pure]
  · intro e
    rw [topologicalOrder, DominatorTree.ofGraph, houtcome, Traversal.outcome]
    cases found.findSome? graph.failure? with
    | some e' => simp [bind, Except.bind]
    | none => simp [bind, Except.bind, pure, Except.pure]

/-- The second node fails and hides the third, the fourth fails behind it in the order of the search, and
the fifth fails out of reach. -/
example :
    let graph : RootedGraph Nat := .ofEdges [⟨1⟩, ⟨1⟩]
      [(⟨1⟩, ⟨1⟩), (⟨1⟩, ⟨2⟩), (⟨2⟩, ⟨3⟩), (⟨1⟩, ⟨4⟩), (⟨5⟩, ⟨1⟩)]
      fun v => if v.val = 1 then none else some v.val.toNat
    graph.topologicalOrder.toOption = none ∧ [⟨1⟩, ⟨2⟩, ⟨4⟩].findSome? graph.failure? = some 2 := by
  decide +kernel

end RootedGraph

end HeapDump
