import HeapDump.Graph.Dominators

/-! Failures under other names.  A search reports the first failure it meets and does nothing else with
it, so renaming the failures of a graph renames the failure of the search. -/

namespace HeapDump

variable {ε ε' α β : Type} (rename : ε → ε')

/-! ### Computations -/

theorem mapError_bind (answer : Except ε α) (next : α → Except ε β) :
    (answer.bind next).mapError rename =
      (answer.mapError rename).bind fun a => (next a).mapError rename := by
  cases answer <;> rfl

theorem mapError_map (answer : Except ε α) (f : α → β) :
    (answer.map f).mapError rename = (answer.mapError rename).map f := by
  cases answer <;> rfl

theorem mapError_foldlM (step : β → α → Except ε β) (start : β) (items : List α) :
    (items.foldlM step start).mapError rename =
      items.foldlM (fun b a => (step b a).mapError rename) start := by
  induction items generalizing start with
  | nil => rfl
  | cons a items ih =>
    rw [List.foldlM_cons, List.foldlM_cons]
    refine (mapError_bind rename (step start a) _).trans ?_
    exact congrArg (Except.bind _) (funext fun b => ih b)

theorem mapError_mapM (f : α → Except ε β) (items : List α) :
    (items.mapM f).mapError rename = items.mapM fun a => (f a).mapError rename := by
  induction items with
  | nil => rfl
  | cons a items ih =>
    rw [List.mapM_cons, List.mapM_cons]
    refine (mapError_bind rename (f a) _).trans (congrArg (Except.bind _) (funext fun b => ?_))
    refine (mapError_bind rename (items.mapM f) _).trans ?_
    rw [ih]
    rfl

/-! ### Searches -/

/-- The graph with its failures renamed. -/
def RootedGraph.mapFailure (graph : RootedGraph ε) : RootedGraph ε' where
  nodes := graph.nodes
  roots := graph.roots
  successors u := (graph.successors u).mapError rename
  roots_mem := graph.roots_mem
  successors_mem u vs h v hv := by
    refine graph.successors_mem u vs ?_ v hv
    cases hu : graph.successors u with
    | error e =>
      rw [hu] at h
      cases h
    | ok us =>
      rw [hu] at h
      cases h
      rfl

namespace Traversal

theorem visit_mapFailure (graph : RootedGraph ε) (fuel : Nat) (t : Traversal) (v : Ident) :
    visit (graph.mapFailure rename) fuel t v = (visit graph fuel t v).mapError rename := by
  induction fuel generalizing t v with
  | zero => rfl
  | succ fuel ih =>
    rw [visit, visit]
    split
    · rfl
    · refine Eq.trans ?_ (mapError_bind rename (graph.successors v) _).symm
      refine congrArg (Except.bind _) (funext fun next => ?_)
      refine Eq.trans ?_ (mapError_bind rename _ _).symm
      rw [mapError_foldlM]
      simp only [ih]
      rfl

theorem ofGraph_mapFailure (graph : RootedGraph ε) :
    ofGraph (graph.mapFailure rename) = (ofGraph graph).mapError rename := by
  rw [ofGraph, ofGraph, mapError_foldlM]
  simp only [visit_mapFailure]
  rfl

end Traversal

theorem RootedGraph.topologicalOrder_mapFailure (graph : RootedGraph ε) :
    (graph.mapFailure rename).topologicalOrder = graph.topologicalOrder.mapError rename := by
  rw [topologicalOrder, topologicalOrder, Traversal.ofGraph_mapFailure]
  exact (mapError_map rename (Traversal.ofGraph graph) Traversal.order).symm

theorem DominatorTree.ofGraph_mapFailure (graph : RootedGraph ε) :
    ofGraph (graph.mapFailure rename) = (ofGraph graph).mapError rename := by
  rw [ofGraph, ofGraph, Traversal.ofGraph_mapFailure]
  exact (mapError_map rename (Traversal.ofGraph graph) ofTraversal).symm

end HeapDump
