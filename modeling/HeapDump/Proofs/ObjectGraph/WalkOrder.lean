import HeapDump.Draft
import HeapDump.ObjectGraph.Retained
import HeapDump.Proofs.ObjectGraph.Acceptance
import HeapDump.Proofs.ObjectGraph.Walk

/-! The order of walks.  A walk from the roots that passes nothing over goes in step with the traversal of
the graph of references: both meet the same objects, leave them in the same order, and fail at the same
object.  A walk also comes to roots that the dump does not hold or that it has met before, and passes
over them. -/

namespace HeapDump

def WalkEvent.entered? : WalkEvent → Option HeapObject
  | enter object => some object
  | leave _ => none

def WalkEvent.left? : WalkEvent → Option HeapObject
  | enter _ => none
  | leave object => some object

namespace Walk

/-- The objects in the order in which they have been entered. -/
def entered (walk : Walk) : List HeapObject :=
  walk.events.toList.filterMap (·.entered?)

/-- The objects in the order in which they have been left. -/
def left (walk : Walk) : List HeapObject :=
  walk.events.toList.filterMap (·.left?)

@[simp] theorem entered_enter (walk : Walk) (object : HeapObject) :
    (walk.enter object).entered = walk.entered ++ [object] := by
  simp [entered, enter, WalkEvent.entered?]

@[simp] theorem left_enter (walk : Walk) (object : HeapObject) :
    (walk.enter object).left = walk.left := by
  simp [left, enter, WalkEvent.left?]

@[simp] theorem entered_leave (walk : Walk) (object : HeapObject) :
    (walk.leave object).entered = walk.entered := by
  simp [entered, leave, WalkEvent.entered?]

@[simp] theorem left_leave (walk : Walk) (object : HeapObject) :
    (walk.leave object).left = walk.left ++ [object] := by
  simp [left, leave, WalkEvent.left?]

/-- A walk and a traversal have met and left the same. -/
structure Agrees (graph : ObjectGraph) (t : Traversal) (walk : Walk) : Prop where
  seen : ∀ v, v ∈ t.seen ↔ v ∈ walk.met
  met : ∀ v, v ∈ walk.met ↔ v ∈ walk.entered.map (·.id)
  nodup : (walk.entered.map (·.id)).Nodup
  left : walk.left.map (·.id) = t.finished.toList
  resolve_entered : ∀ object ∈ walk.entered, graph.resolve object.id = some object
  resolve_left : ∀ object ∈ walk.left, graph.resolve object.id = some object

/-- A traversal and a walk end in the same way. -/
def InStep (graph : ObjectGraph) :
    Except DumpError Traversal → EStateM.Result DumpError Walk Unit → Prop
  | .ok t, .ok _ walk => Agrees graph t walk
  | .error e, .error e' _ => e = e'
  | _, _ => False

variable {graph : ObjectGraph} {t : Traversal} {walk : Walk}

theorem InStep.cases {answer : Except DumpError Traversal}
    {result : EStateM.Result DumpError Walk Unit} (h : InStep graph answer result) :
    (∃ t walk, answer = .ok t ∧ result = .ok () walk ∧ Agrees graph t walk) ∨
      ∃ e walk, answer = .error e ∧ result = .error e walk := by
  cases answer with
  | ok t =>
    cases result with
    | ok _ walk => exact .inl ⟨t, walk, rfl, rfl, h⟩
    | error e walk => exact h.elim
  | error e =>
    cases result with
    | ok _ walk => exact h.elim
    | error e' walk =>
      obtain rfl : e = e' := h
      exact .inr ⟨e, walk, rfl, rfl⟩

theorem agrees_empty (graph : ObjectGraph) : Agrees graph .empty empty := by
  constructor <;> simp [Traversal.empty, empty, entered, left]

theorem Agrees.look (h : Agrees graph t walk) (start : Option Ident) (v : Ident) :
    Agrees graph (t.look start v) walk :=
  ⟨h.seen, h.met, h.nodup, h.left, h.resolve_entered, h.resolve_left⟩

theorem Agrees.enter (h : Agrees graph t walk) {object : HeapObject} (hnew : object.id ∉ walk.met)
    (hresolve : graph.resolve object.id = some object) :
    Agrees graph (t.find object.id) (walk.enter object) := by
  have hmet : ∀ v, v ∈ (walk.enter object).met ↔ v = object.id ∨ v ∈ walk.met :=
    fun v => mem_insert_iff
  refine ⟨fun v => ?_, fun v => ?_, ?_, ?_, ?_, ?_⟩
  · rw [Traversal.mem_seen_find, hmet, h.seen]
  · rw [hmet, h.met, entered_enter, List.map_append, List.mem_append, or_comm]
    simp
  · rw [entered_enter, List.map_append]
    refine List.Nodup.append h.nodup (List.nodup_singleton _) ?_
    exact List.disjoint_singleton.mpr fun hmem => hnew ((h.met _).mpr hmem)
  · rw [left_enter]
    exact h.left
  · rw [entered_enter]
    exact List.forall_mem_append.mpr ⟨h.resolve_entered, by simpa using hresolve⟩
  · rw [left_enter]
    exact h.resolve_left

theorem Agrees.leave (h : Agrees graph t walk) {object : HeapObject}
    (hresolve : graph.resolve object.id = some object) :
    Agrees graph (t.finish object.id) (walk.leave object) := by
  refine ⟨h.seen, ?_, ?_, ?_, ?_, ?_⟩
  · rw [entered_leave]
    exact h.met
  · rw [entered_leave]
    exact h.nodup
  · rw [left_leave, List.map_append, h.left]
    exact Array.toList_push.symm
  · rw [entered_leave]
    exact h.resolve_entered
  · rw [left_leave]
    exact List.forall_mem_append.mpr ⟨h.resolve_left, by simpa using hresolve⟩

/-- Searches of which each single visit goes in step go in step. -/
theorem forM_inStep {visit : Ident → EStateM DumpError Walk Unit}
    {search : Traversal → Ident → Except DumpError Traversal} {ids : List Ident}
    (hstep : ∀ id ∈ ids, ∀ t walk, Agrees graph t walk →
      InStep graph (search t id) (visit id walk)) (h : Agrees graph t walk) :
    InStep graph (ids.foldlM search t) (ids.forM visit walk) := by
  induction ids generalizing t walk with
  | nil => exact h
  | cons id ids ih =>
    rw [List.foldlM_cons, forM_cons]
    rcases (hstep id List.mem_cons_self t walk h).cases with
      ⟨t', walk', hsearch, hvisit, hnext⟩ | ⟨e, walk', hsearch, hvisit⟩
    · rw [hsearch, hvisit]
      exact ih (fun i hi => hstep i (List.mem_cons_of_mem id hi)) hnext
    · rw [hsearch, hvisit]
      rfl

/-- An identifier that stands for nothing is passed over. -/
theorem visit_of_not_contains {fuel : Nat} {id : Ident} (h : ¬graph.contains id = true)
    (walk : Walk) : visit graph (fun _ => true) (fuel + 1) id walk = .ok () walk := by
  rw [visit_succ]
  cases hresolve : graph.resolve id with
  | none => rfl
  | some object => exact absurd (contains_of_resolve hresolve) h

section Sound

variable (sound : graph.Sound)
include sound

theorem visit_inStep (fuel : Nat) {id : Ident} (hid : graph.contains id = true)
    (start : Option Ident) (h : Agrees graph t walk) :
    InStep graph (Traversal.visit graph.rooted fuel (t.look start id) id)
      (visit graph (fun _ => true) fuel id walk) := by
  induction fuel generalizing id t walk start with
  | zero => exact h.look start id
  | succ fuel ih =>
    obtain ⟨object, hresolve, rfl⟩ := sound.resolve_of_contains hid
    have hlook := h.look start object.id
    rw [visit_succ, Traversal.visit]
    simp only [hresolve]
    by_cases hmet : object.id ∈ walk.met
    · rw [if_pos hmet, if_pos ((hlook.seen _).mpr hmet)]
      exact hlook
    · rw [if_neg hmet, if_neg fun hseen => hmet ((hlook.seen _).mp hseen)]
      show InStep graph ((graph.references object.id).bind _) _
      cases hids : graph.references object.id with
      | error e => rfl
      | ok ids =>
        have hrest : InStep graph
            (ids.foldlM (fun t w => Traversal.visit graph.rooted fuel (t.look (some object.id) w) w)
              ((t.look start object.id).find object.id))
            (ids.forM (visit graph (fun _ => true) fuel) (walk.enter object)) :=
          forM_inStep
            (fun w hw t walk h => ih (contains_of_references hids hw) (some object.id) h)
            (hlook.enter hmet hresolve)
        simp only [if_true]
        rcases hrest.cases with ⟨t', walk', hsearch, hvisit, hnext⟩ | ⟨e, walk', hsearch, hvisit⟩
        · rw [hvisit]
          show InStep graph (Except.bind (ids.foldlM _ _) _) _
          rw [hsearch]
          exact hnext.leave hresolve
        · rw [hvisit]
          show InStep graph (Except.bind (ids.foldlM _ _) _) _
          rw [hsearch]
          rfl

/-! ### Starts that are passed over -/

theorem visit_of_met {fuel : Nat} {id : Ident} (h : id ∈ walk.met) :
    visit graph (fun _ => true) (fuel + 1) id walk = .ok () walk := by
  rw [visit_succ]
  cases hresolve : graph.resolve id with
  | none => rfl
  | some object =>
    obtain rfl : object.id = id := sound.id_of_resolve hresolve
    simp only [if_pos h]

/-- A visit from a start leaves what has been met, and meets the start. -/
theorem visit_visited_start {id : Ident} {walk' : Walk}
    (h : visit graph (fun _ => true) (graph.index.size + 1) id walk = .ok () walk') :
    Visited graph walk walk.met.toList [id] walk' := by
  refine visit_visited sound (fun v hv => .inl (Std.TreeSet.mem_toList.mpr hv)) ?_ h
  rw [← Std.TreeMap.length_keys]
  exact Nat.lt_succ_of_le List.countP_le_length

theorem forM_filter_ne {id : Ident} (hid : id ∈ walk.met) (ids : List Ident) :
    ids.forM (visit graph (fun _ => true) (graph.index.size + 1)) walk =
      (ids.filter (· ≠ id)).forM (visit graph (fun _ => true) (graph.index.size + 1)) walk := by
  induction ids generalizing walk with
  | nil => rfl
  | cons first ids ih =>
    by_cases hfirst : first = id
    · rw [List.filter_cons_of_neg (by simpa using hfirst), forM_cons, hfirst, visit_of_met sound hid]
      exact ih hid
    · rw [List.filter_cons_of_pos (by simpa using hfirst), forM_cons, forM_cons]
      cases hvisit : visit graph (fun _ => true) (graph.index.size + 1) first walk with
      | error e walk' => rfl
      | ok _ walk' => exact ih ((visit_visited_start sound hvisit).keeps id hid)

/-- Starts that stand for nothing or come again make no difference. -/
theorem forM_eraseDups (ids : List Ident) (walk : Walk) :
    ids.forM (visit graph (fun _ => true) (graph.index.size + 1)) walk =
      (ids.filter graph.contains).eraseDups.forM
        (visit graph (fun _ => true) (graph.index.size + 1)) walk := by
  cases ids with
  | nil => rfl
  | cons id ids =>
    by_cases hid : graph.contains id = true
    · rw [List.filter_cons_of_pos hid, List.eraseDups_cons, forM_cons, forM_cons]
      cases hvisit : visit graph (fun _ => true) (graph.index.size + 1) id walk with
      | error e walk' => rfl
      | ok _ walk' =>
        have hmet := (visit_visited_start sound hvisit).met id List.mem_cons_self hid
        have hswap : (ids.filter graph.contains).filter (!· == id) =
            (ids.filter (· ≠ id)).filter graph.contains := by
          simp only [List.filter_filter, ne_eq, decide_not, Bool.and_comm,
            beq_eq_decide]
        simp only [forM_filter_ne sound hmet ids, hswap]
        exact forM_eraseDups (ids.filter (· ≠ id)) walk'
    · rw [List.filter_cons_of_neg hid, forM_cons, visit_of_not_contains hid]
      exact forM_eraseDups ids walk
termination_by ids.length
decreasing_by
  · exact Nat.lt_succ_of_le (List.length_filter_le _ _)
  · exact Nat.lt_succ_self _

/-! ### Whole walks -/

theorem fromRoots_inStep :
    InStep graph (Traversal.ofGraph graph.rooted) (fromRoots graph fun _ => true) := by
  have hfuel : graph.rooted.nodes.length = graph.index.size := Std.TreeMap.length_keys
  have hroots : fromRoots graph (fun _ => true) = graph.rootObjects.forM
      (visit graph (fun _ => true) (graph.index.size + 1)) empty :=
    forM_eraseDups sound (graph.roots.map Root.object) empty
  rw [hroots, Traversal.ofGraph, hfuel]
  refine forM_inStep (fun id hid t walk h => ?_) (agrees_empty graph)
  have hcontains := (List.mem_filter.mp (List.mem_eraseDups.mp hid)).2
  exact visit_inStep sound _ hcontains none h

end Sound

theorem filterMap_resolve {objects : List HeapObject}
    (h : ∀ object ∈ objects, graph.resolve object.id = some object) :
    (objects.map (·.id)).filterMap graph.resolve = objects := by
  have hsome : objects.filterMap (graph.resolve ∘ (·.id)) = objects.filterMap some :=
    List.filterMap_congr h
  rw [List.filterMap_map, hsome, List.filterMap_some]

/-- At its end, a traversal has finished what it has seen, and so a walk in step with it has left what it
has entered. -/
theorem Agrees.perm (h : Agrees graph t walk) (holds : Traversal.Holds graph.rooted t []) :
    walk.entered.Perm walk.left := by
  have hline : t.line [] = t.finished.toList := List.append_nil _
  have hids : (walk.entered.map (·.id)).Perm (walk.left.map (·.id)) := by
    rw [h.left]
    refine (List.perm_ext_iff_of_nodup h.nodup (hline ▸ holds.nodup)).mpr fun v => ?_
    rw [← h.met, ← h.seen, holds.seen, hline]
  have hobjects := hids.filterMap graph.resolve
  rwa [filterMap_resolve h.resolve_entered, filterMap_resolve h.resolve_left] at hobjects

end Walk

namespace ObjectGraph

/-- The order of a walk through an accepted dump, or the common failure of all searches. -/
theorem walk_order_of_accepted (file : ByteArray) (graph : ObjectGraph)
    (h : read (.ofBytes file) = .ok graph) :
    (∃ e walk, Walk.fromRoots graph (fun _ => true) = .error e walk ∧
      graph.topologicalOrder = .error e ∧ graph.dominators = .error e) ∨
    ∃ walk order tree, Walk.fromRoots graph (fun _ => true) = .ok () walk ∧
      graph.topologicalOrder = .ok order ∧ graph.dominators = .ok tree ∧
      tree.reachable = order ∧ walk.left.map (·.id) = order.reverse ∧
      (∀ object ∈ walk.left, graph.resolve object.id = some object) ∧
      walk.entered.Perm walk.left ∧ walk.entered.Nodup := by
  have sound : graph.Sound := read_sound (ByteSource.lawful_ofBytes file) h
  have hleads := Traversal.ofGraph_leadsTo graph.rooted
  rcases (Walk.fromRoots_inStep sound).cases with
    ⟨t, walk, htraversal, hwalk, hagrees⟩ | ⟨e, walk, htraversal, hwalk⟩
  · refine .inr ⟨walk, t.order, .ofTraversal t, hwalk, ?_, ?_, rfl, ?_, hagrees.resolve_left, ?_,
      hagrees.nodup.of_map⟩
    · rw [topologicalOrder, RootedGraph.topologicalOrder, htraversal]
      rfl
    · rw [dominators, DominatorTree.ofGraph, htraversal]
      rfl
    · rw [hagrees.left, Traversal.order, List.reverse_reverse]
    · rw [htraversal] at hleads
      exact hagrees.perm hleads.1
  · refine .inl ⟨e, walk, hwalk, ?_, ?_⟩
    · rw [topologicalOrder, RootedGraph.topologicalOrder, htraversal]
      rfl
    · rw [dominators, DominatorTree.ofGraph, htraversal]
      rfl

/-- Two arrays hold each other and themselves.  The second is a root twice, behind one that stands for
nothing, and another array is a root of its own. -/
def knotted : ByteArray :=
  (Draft.toBytes ⟨"JAVA PROFILE 1.0.2", .four, 0,
    [.heapDump [.root (.root .systemClass) ⟨9⟩, .root (.root .systemClass) ⟨2⟩,
      .root (.root .systemClass) ⟨3⟩, .root (.root .systemClass) ⟨2⟩,
      .objectArray ⟨1⟩ ⟨8⟩ [some ⟨2⟩, some ⟨1⟩, some ⟨2⟩],
      .objectArray ⟨2⟩ ⟨8⟩ [some ⟨2⟩, some ⟨7⟩, some ⟨1⟩],
      .objectArray ⟨3⟩ ⟨8⟩ [some ⟨1⟩]]]⟩).toByteArray

theorem walk_order_of_accepted_knotted :
    ∃ graph walk order tree, read (.ofBytes knotted) = .ok graph ∧
      Walk.fromRoots graph (fun _ => true) = .ok () walk ∧ graph.topologicalOrder = .ok order ∧
      graph.dominators = .ok tree ∧ tree.reachable = order ∧
      (walk.left.map (·.id) = order.reverse ∧ order = [⟨3⟩, ⟨2⟩, ⟨1⟩]) ∧
      walk.entered.Perm walk.left ∧ walk.entered.Nodup := by
  have hread : ((read (.ofBytes knotted)).toOption.any fun graph =>
      graph.topologicalOrder.toOption = some [⟨3⟩, ⟨2⟩, ⟨1⟩]) = true := by
    decide +kernel
  obtain ⟨graph, hgraph, hsorted⟩ := exists_of_any hread
  rw [decide_eq_true_eq] at hsorted
  rcases walk_order_of_accepted knotted graph hgraph with
    ⟨e, walk, -, horder, -⟩ | ⟨walk, order, tree, hwalk, horder, htree, hreach, hleft, -, hperm, hnodup⟩
  · rw [horder] at hsorted
    cases hsorted
  · rw [horder] at hsorted
    exact ⟨graph, walk, order, tree, hgraph, hwalk, horder, htree, hreach,
      ⟨hleft, Option.some.inj hsorted⟩, hperm, hnodup⟩

end ObjectGraph

end HeapDump
