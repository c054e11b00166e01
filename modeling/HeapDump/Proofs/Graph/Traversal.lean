import HeapDump.Proofs.Graph.Search

/-! What a depth first traversal comes to.  The finished nodes followed by those found but not finished,
innermost first, stand in the order in which they are or will be finished.  Each of them was met on an
edge from the super-root or from a node further on in that line, and a step of the search only adds to
the line.  At the end all reachable nodes are finished, or one of them has failed. -/

namespace HeapDump

namespace Traversal

variable {ε : Type} {graph : RootedGraph ε}

/-- The nodes found, in the order in which they are or will be finished. -/
def line (t : Traversal) (pending : List Ident) : List Ident := t.finished.toList ++ pending

/-- A traversal that has found but not finished the nodes of `pending`, innermost first. -/
structure Holds (graph : RootedGraph ε) (t : Traversal) (pending : List Ident) : Prop where
  nodup : (t.line pending).Nodup
  seen : ∀ v, v ∈ t.seen ↔ v ∈ t.line pending
  reachable : ∀ v ∈ t.line pending, graph.Reachable v
  edge : ∀ start v, (start, v) ∈ t.edges →
    graph.IsEdge start v ∧ ∀ u, start = some u → u ∈ t.line pending
  done : ∀ v ∈ t.finished, ∃ vs, graph.successors v = .ok vs ∧
    ∀ w ∈ vs, w ∈ t.seen ∧ (some v, w) ∈ t.edges
  met : ∀ before v rest, t.line pending = before ++ v :: rest →
    ∃ start, (start, v) ∈ t.edges ∧ ∀ u, start = some u → u ∈ rest

/-- Nothing found or looked at is given up. -/
structure Extends (t t' : Traversal) : Prop where
  seen : ∀ v, v ∈ t.seen → v ∈ t'.seen
  edges : ∀ e, e ∈ t.edges → e ∈ t'.edges

/-- What looking at the edges from `start` to `targets` comes to. -/
def LeadsTo (graph : RootedGraph ε) (t : Traversal) (pending : List Ident) (start : Option Ident)
    (targets : List Ident) : Except ε Traversal → Prop
  | .error e => ∃ u, graph.Reachable u ∧ graph.successors u = .error e
  | .ok t' => Holds graph t' pending ∧ Extends t t' ∧
      ∀ v ∈ targets, v ∈ t'.seen ∧ (start, v) ∈ t'.edges

theorem Extends.trans {t t' t'' : Traversal} (h : Extends t t') (h' : Extends t' t'') :
    Extends t t'' :=
  ⟨fun v hv => h'.seen v (h.seen v hv), fun e he => h'.edges e (h.edges e he)⟩

/-! ### Looking, finding and finishing -/

theorem extends_look (t : Traversal) (start : Option Ident) (v : Ident) :
    Extends t (t.look start v) :=
  ⟨fun _ h => h, fun _ h => Array.mem_push_of_mem _ h⟩

theorem extends_find (t : Traversal) (v : Ident) : Extends t (t.find v) :=
  ⟨fun _ h => mem_seen_find.mpr (.inr h), fun _ h => h⟩

theorem extends_finish (t : Traversal) (v : Ident) : Extends t (t.finish v) :=
  ⟨fun _ h => h, fun _ h => h⟩

theorem Holds.look {t : Traversal} {pending : List Ident} (holds : Holds graph t pending)
    {start : Option Ident} {v : Ident} (hedge : graph.IsEdge start v)
    (hstart : ∀ u, start = some u → u ∈ pending) : Holds graph (t.look start v) pending where
  nodup := holds.nodup
  seen := holds.seen
  reachable := holds.reachable
  edge s w h := by
    rcases Array.mem_push.mp h with h | h
    · exact holds.edge s w h
    · cases h
      exact ⟨hedge, fun u hu => List.mem_append_right _ (hstart u hu)⟩
  done w hw := by
    obtain ⟨vs, hvs, hall⟩ := holds.done w hw
    exact ⟨vs, hvs, fun x hx => ⟨(hall x hx).1, Array.mem_push_of_mem _ (hall x hx).2⟩⟩
  met before w rest hline := by
    obtain ⟨s, hs, hrest⟩ := holds.met before w rest hline
    exact ⟨s, Array.mem_push_of_mem _ hs, hrest⟩

theorem line_find (t : Traversal) (v : Ident) (pending : List Ident) :
    (t.find v).line (v :: pending) = t.finished.toList ++ v :: pending := rfl

theorem mem_line_find {t : Traversal} {v w : Ident} {pending : List Ident} :
    w ∈ (t.find v).line (v :: pending) ↔ w = v ∨ w ∈ t.line pending := by
  rw [line_find, line, List.mem_append, List.mem_cons, List.mem_append]
  exact or_left_comm

theorem Holds.find {t : Traversal} {pending : List Ident} (holds : Holds graph t pending)
    {start : Option Ident} {v : Ident} (hv : v ∉ t.seen) (hedge : (start, v) ∈ t.edges)
    (hstart : ∀ u, start = some u → u ∈ pending) : Holds graph (t.find v) (v :: pending) where
  nodup := by
    rw [line_find]
    have hnew : v ∉ t.line pending := fun h => hv ((holds.seen v).mpr h)
    exact (List.nodup_middle).mpr (List.nodup_cons.mpr ⟨hnew, holds.nodup⟩)
  seen w := by
    rw [mem_seen_find, mem_line_find, holds.seen]
  reachable w hw := by
    rcases mem_line_find.mp hw with rfl | hw
    · obtain ⟨his, hfrom⟩ := holds.edge start w hedge
      exact his.reachable fun u hu => holds.reachable u (hfrom u hu)
    · exact holds.reachable w hw
  edge s w h := by
    obtain ⟨his, hfrom⟩ := holds.edge s w h
    exact ⟨his, fun u hu => mem_line_find.mpr (.inr (hfrom u hu))⟩
  done w hw := by
    obtain ⟨vs, hvs, hall⟩ := holds.done w hw
    exact ⟨vs, hvs, fun x hx => ⟨mem_seen_find.mpr (.inr (hall x hx).1), (hall x hx).2⟩⟩
  met before w rest hline := by
    rw [line_find, List.append_eq_append_iff] at hline
    -- Either `w` comes at or after the new node, or it is finished and the new node comes later.
    rcases hline with ⟨between, hbefore, hsplit⟩ | ⟨between, hfinished, hsplit⟩
    · rcases List.cons_eq_append_iff.mp hsplit with ⟨-, hcons⟩ | ⟨more, -, hpending⟩
      · cases hcons
        exact ⟨start, hedge, hstart⟩
      · exact holds.met (t.finished.toList ++ more) w rest
          (by rw [line, hpending, List.append_assoc])
    · rcases List.cons_eq_append_iff.mp hsplit with ⟨-, hcons⟩ | ⟨more, hmore, hrest⟩
      · cases hcons
        exact ⟨start, hedge, hstart⟩
      · obtain ⟨s, hs, hin⟩ := holds.met before w (more ++ pending)
          (by rw [line, hfinished, hmore, List.append_assoc, List.cons_append])
        refine ⟨s, hs, fun u hu => ?_⟩
        rw [hrest]
        rcases List.mem_append.mp (hin u hu) with h | h
        · exact List.mem_append_left _ h
        · exact List.mem_append_right _ (List.mem_cons_of_mem v h)

theorem line_finish (t : Traversal) (v : Ident) (pending : List Ident) :
    (t.finish v).line pending = t.line (v :: pending) := by
  rw [line, show (t.finish v).finished = t.finished.push v from rfl, Array.toList_push,
    List.append_assoc]
  rfl

theorem Holds.finish {t : Traversal} {pending : List Ident} {v : Ident}
    (holds : Holds graph t (v :: pending)) {vs : List Ident} (hvs : graph.successors v = .ok vs)
    (hall : ∀ w ∈ vs, w ∈ t.seen ∧ (some v, w) ∈ t.edges) : Holds graph (t.finish v) pending where
  nodup := by
    rw [line_finish]
    exact holds.nodup
  seen w := by
    rw [line_finish]
    exact holds.seen w
  reachable w hw := by
    rw [line_finish] at hw
    exact holds.reachable w hw
  edge s w h := by
    rw [line_finish]
    exact holds.edge s w h
  done w hw := by
    rcases Array.mem_push.mp hw with hw | rfl
    · exact holds.done w hw
    · exact ⟨vs, hvs, hall⟩
  met before w rest hline := by
    rw [line_finish] at hline
    exact holds.met before w rest hline

/-! ### The search -/

/-- What the stack holds has been found and not finished. -/
def pending (stack : List Frame) : List Ident := stack.filterMap (·.start)

theorem pending_none (left : List Ident) (stack : List Frame) :
    pending (⟨none, left⟩ :: stack) = pending stack := rfl

theorem pending_some (v : Ident) (left : List Ident) (stack : List Frame) :
    pending (⟨some v, left⟩ :: stack) = v :: pending stack := rfl

/-- The successors that are no longer left in the frame have been looked at. -/
def Frame.Fits (graph : RootedGraph ε) (t : Traversal) (frame : Frame) : Prop :=
  ∃ looked, graph.targets frame.start = .ok (looked ++ frame.left) ∧
    ∀ v ∈ looked, v ∈ t.seen ∧ (frame.start, v) ∈ t.edges

theorem Frame.Fits.mono {t t' : Traversal} {frame : Frame} (h : frame.Fits graph t)
    (hext : Extends t t') : frame.Fits graph t' := by
  obtain ⟨looked, htargets, hall⟩ := h
  exact ⟨looked, htargets, fun v hv => ⟨hext.seen v (hall v hv).1, hext.edges _ (hall v hv).2⟩⟩

theorem Frame.Fits.isEdge {t : Traversal} {start : Option Ident} {v : Ident} {left : List Ident}
    (h : (⟨start, v :: left⟩ : Frame).Fits graph t) : graph.IsEdge start v := by
  obtain ⟨looked, htargets, -⟩ := h
  exact RootedGraph.isEdge_iff.mpr
    ⟨_, htargets, List.mem_append_right _ List.mem_cons_self⟩

theorem Frame.Fits.next {t : Traversal} {start : Option Ident} {v : Ident} {left : List Ident}
    (h : (⟨start, v :: left⟩ : Frame).Fits graph t) (hseen : v ∈ t.seen)
    (hedge : (start, v) ∈ t.edges) : (⟨start, left⟩ : Frame).Fits graph t := by
  obtain ⟨looked, htargets, hall⟩ := h
  refine ⟨looked ++ [v], by rw [htargets, List.append_cons], ?_⟩
  exact List.forall_mem_append.mpr ⟨hall, List.forall_mem_singleton.mpr ⟨hseen, hedge⟩⟩

/-- A traversal together with the calls under way. -/
structure Stands (graph : RootedGraph ε) (state : Traversal × List Frame) : Prop where
  holds : Holds graph state.1 (pending state.2)
  fits : ∀ frame ∈ state.2, frame.Fits graph state.1

theorem Step.extends {state state' : Traversal × List Frame} (h : Step graph state state') :
    Extends state.1 state'.1 := by
  cases h with
  | known => exact extends_look _ _ _
  | new => exact (extends_look _ _ _).trans (extends_find _ _)
  | done => exact extends_finish _ _

theorem Steps.extends {state state' : Traversal × List Frame} (h : Steps graph state state') :
    Extends state.1 state'.1 := by
  induction h with
  | refl => exact ⟨fun _ h => h, fun _ h => h⟩
  | tail _ hstep ih => exact ih.trans hstep.extends

theorem mem_pending {start : Option Ident} {left : List Ident} {stack : List Frame} {u : Ident}
    (h : start = some u) : u ∈ pending (⟨start, left⟩ :: stack) :=
  List.mem_filterMap.mpr ⟨_, List.mem_cons_self, h⟩

theorem Stands.find {t : Traversal} {start : Option Ident} {v : Ident} {left : List Ident}
    {stack : List Frame} (stands : Stands graph (t, ⟨start, v :: left⟩ :: stack)) (hnew : v ∉ t.seen) :
    Holds graph ((t.look start v).find v) (v :: pending (⟨start, left⟩ :: stack)) :=
  (stands.holds.look (stands.fits _ List.mem_cons_self).isEdge fun _ => mem_pending).find hnew
    Array.mem_push_self fun _ => mem_pending

theorem Stands.step {state state' : Traversal × List Frame} (stands : Stands graph state)
    (h : Step graph state state') : Stands graph state' := by
  have hfits := fun frame hframe => (stands.fits frame hframe).mono h.extends
  cases h with
  | known hseen =>
    obtain ⟨htop, hbelow⟩ := List.forall_mem_cons.mp hfits
    exact {
      holds := stands.holds.look htop.isEdge fun _ => mem_pending
      fits := List.forall_mem_cons.mpr ⟨htop.next hseen Array.mem_push_self, hbelow⟩ }
  | new hnew hvs =>
    obtain ⟨htop, hbelow⟩ := List.forall_mem_cons.mp hfits
    have hnext := htop.next (mem_seen_find.mpr (.inl rfl)) Array.mem_push_self
    exact {
      holds := stands.find hnew
      fits := List.forall_mem_cons.mpr ⟨⟨[], hvs, by simp⟩, List.forall_mem_cons.mpr ⟨hnext, hbelow⟩⟩ }
  | done =>
    obtain ⟨⟨looked, hvs, hall⟩, -⟩ := List.forall_mem_cons.mp stands.fits
    rw [List.append_nil] at hvs
    exact {
      holds := stands.holds.finish hvs hall
      fits := (List.forall_mem_cons.mp hfits).2 }

theorem Stands.steps {state state' : Traversal × List Frame} (stands : Stands graph state)
    (h : Steps graph state state') : Stands graph state' := by
  induction h with
  | refl => exact stands
  | tail _ hstep ih => exact ih.step hstep

theorem holds_empty (graph : RootedGraph ε) : Holds graph empty [] where
  nodup := List.nodup_nil
  seen v := by simp [empty, line]
  reachable v hv := by simp [empty, line] at hv
  edge start v h := by simp [empty] at h
  done v hv := by simp [empty] at hv
  met before v rest h := by simp [empty, line] at h

/-! ### The whole traversal -/

/-- A traversal of all that the roots reach. -/
structure Covers (graph : RootedGraph ε) (t : Traversal) : Prop where
  nodup : t.order.Nodup
  mem_order : ∀ v, v ∈ t.order ↔ graph.Reachable v
  mem_edges : ∀ start v, (start, v) ∈ t.edges ↔
    graph.IsEdge start v ∧ ∀ u, start = some u → graph.Reachable u
  /-- Each node was met on an edge from the super-root or from an earlier node. -/
  met : ∀ before v rest, t.order = before ++ v :: rest →
    ∃ start, (start, v) ∈ t.edges ∧ ∀ u, start = some u → u ∈ before

theorem Holds.finished_of_reachable {t : Traversal} (holds : Holds graph t [])
    (hroots : ∀ r ∈ graph.roots, r ∈ t.seen) {v : Ident} (h : graph.Reachable v) :
    v ∈ t.finished := by
  have hseen : ∀ {v}, v ∈ t.seen → v ∈ t.finished := by
    intro v hv
    have hline := (holds.seen v).mp hv
    rw [line, List.append_nil] at hline
    exact Array.mem_toList_iff.mp hline
  refine h.induction (fun r hr => hseen (hroots r hr)) fun u w hu hstep => ?_
  obtain ⟨vs, hvs, hw⟩ := hstep
  obtain ⟨vs', hvs', hall⟩ := holds.done u hu
  rw [hvs] at hvs'
  cases hvs'
  exact hseen (hall w hw).1

theorem Holds.covers {t : Traversal} (holds : Holds graph t [])
    (hroots : ∀ r ∈ graph.roots, r ∈ t.seen ∧ (none, r) ∈ t.edges) : Covers graph t where
  nodup := List.nodup_reverse.mpr (by simpa [line] using holds.nodup)
  mem_order v := by
    rw [order, List.mem_reverse, Array.mem_toList_iff]
    refine ⟨fun hv => holds.reachable v ?_, holds.finished_of_reachable fun r hr => (hroots r hr).1⟩
    exact List.mem_append_left _ (Array.mem_toList_iff.mpr hv)
  mem_edges start v := by
    refine ⟨fun h => ?_, fun ⟨hedge, hstart⟩ => ?_⟩
    · obtain ⟨hedge, hfrom⟩ := holds.edge start v h
      exact ⟨hedge, fun u hu => holds.reachable u (hfrom u hu)⟩
    · cases start with
      | none => exact (hroots v hedge).2
      | some u =>
        obtain ⟨vs, hvs, hv⟩ := hedge
        obtain ⟨vs', hvs', hall⟩ :=
          holds.done u (holds.finished_of_reachable (fun r hr => (hroots r hr).1) (hstart u rfl))
        rw [hvs] at hvs'
        cases hvs'
        exact (hall v hv).2
  met before v rest horder := by
    have hline : t.line [] = rest.reverse ++ v :: before.reverse := by
      rw [line, List.append_nil, ← List.reverse_reverse t.finished.toList]
      rw [order] at horder
      rw [horder]
      simp
    obtain ⟨start, hedge, hstart⟩ := holds.met _ v _ hline
    exact ⟨start, hedge, fun u hu => List.mem_reverse.mp (hstart u hu)⟩

theorem Holds.total {t : Traversal} (holds : Holds graph t [])
    (hroots : ∀ r ∈ graph.roots, r ∈ t.seen) : graph.Total := by
  intro u hu
  obtain ⟨vs, hvs, -⟩ := holds.done u (holds.finished_of_reachable hroots hu)
  exact ⟨vs, hvs⟩

theorem stands_empty (graph : RootedGraph ε) : Stands graph (empty, [⟨none, graph.roots⟩]) where
  holds := holds_empty graph
  fits := List.forall_mem_singleton.mpr ⟨[], rfl, by simp⟩

theorem ofGraph_leadsTo (graph : RootedGraph ε) :
    LeadsTo graph empty [] none graph.roots (ofGraph graph) := by
  have hsearch := ofGraph_comesTo graph
  cases hgraph : ofGraph graph with
  | error e =>
    rw [hgraph] at hsearch
    obtain ⟨t, start, v, left, below, hsteps, hnew, hfails⟩ := hsearch
    have hfound := ((stands_empty graph).steps hsteps).find hnew
    exact ⟨v, hfound.reachable v (mem_line_find.mpr (.inl rfl)), hfails⟩
  | ok t =>
    rw [hgraph] at hsearch
    have stands := (stands_empty graph).steps hsearch
    obtain ⟨looked, hroots, hall⟩ := stands.fits _ List.mem_cons_self
    cases hroots.trans (congrArg Except.ok (List.append_nil looked))
    exact ⟨stands.holds, Steps.extends hsearch, hall⟩

/-- The traversal covers the graph, or the successors of a reachable node have failed. -/
theorem ofGraph_spec (graph : RootedGraph ε) :
    match ofGraph graph with
    | .error e => ∃ u, graph.Reachable u ∧ graph.successors u = .error e
    | .ok t => graph.Total ∧ Covers graph t := by
  have hfold := ofGraph_leadsTo graph
  cases hgraph : ofGraph graph with
  | error e =>
    rw [hgraph] at hfold
    exact hfold
  | ok t =>
    rw [hgraph] at hfold
    obtain ⟨holds, -, hroots⟩ := hfold
    exact ⟨holds.total fun r hr => (hroots r hr).1, holds.covers hroots⟩

theorem ofGraph_ok (htotal : graph.Total) : ∃ t, ofGraph graph = .ok t ∧ Covers graph t := by
  have hspec := ofGraph_spec graph
  cases hgraph : ofGraph graph with
  | error e =>
    rw [hgraph] at hspec
    obtain ⟨u, hu, he⟩ := hspec
    obtain ⟨vs, hvs⟩ := htotal u hu
    rw [hvs] at he
    cases he
  | ok t =>
    rw [hgraph] at hspec
    exact ⟨t, rfl, hspec.2⟩

theorem ofGraph_ok_iff : (∃ t, ofGraph graph = .ok t) ↔ graph.Total := by
  constructor
  · rintro ⟨t, ht⟩
    have hspec := ofGraph_spec graph
    rw [ht] at hspec
    exact hspec.1
  · intro htotal
    obtain ⟨t, ht, -⟩ := ofGraph_ok htotal
    exact ⟨t, ht⟩

end Traversal

end HeapDump
