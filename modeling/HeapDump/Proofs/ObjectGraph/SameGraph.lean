import HeapDump.Proofs.ObjectGraph.Layout
import HeapDump.Proofs.ObjectGraph.SameTable

/-! Graphs of dumps that hold the same in other places.  Alike censuses come to alike graphs, and where the
instances of a graph have room for the layouts of their classes, those of an alike graph have it too. -/

namespace HeapDump.ObjectGraph

/-- Everything in two graphs that is not a count of records is the same up to the places of instances. -/
structure Alike (graph graph' : ObjectGraph) : Prop where
  table : graph.toObjectTable.Alike graph.source graph'.source graph.idWidth graph'.toObjectTable
  header : graph.header = graph'.header
  strings : graph.strings = graph'.strings
  classSerials : graph.classSerials = graph'.classSerials
  stackTraces : graph.stackTraces = graph'.stackTraces
  threads : graph.threads = graph'.threads
  layouts : graph.layouts = graph'.layouts
  rootCounts : graph.rootCounts = graph'.rootCounts

theorem alike_ofCensus {source source' : ByteSource} {header : Header} {census census' : Census}
    (h : census.Alike source source' header.idWidth census') :
    (ofCensus source header census).Alike (ofCensus source' header census') where
  table := h.table.link
  header := rfl
  strings := h.strings
  classSerials := h.classSerials
  stackTraces := h.stackTraces
  threads := h.threads
  layouts := h.table.link.layouts
  rootCounts := h.rootCounts

variable {graph graph' : ObjectGraph}

theorem Alike.idWidth (h : graph.Alike graph') : graph.idWidth = graph'.idWidth :=
  congrArg Header.idWidth h.header

theorem Alike.layout? (h : graph.Alike graph') : graph.layout? = graph'.layout? := by
  funext id
  rw [ObjectGraph.layout?, h.layouts, ← ObjectGraph.layout?]

/-- The instances of alike graphs, one by one. -/
theorem Alike.instances (h : graph.Alike graph') :
    List.Forall₂ (fun i i' => i.detach graph.source graph.idWidth =
      i'.detach graph'.source graph.idWidth) graph.instances graph'.instances := by
  have heq : List.Forall₂ Eq (graph.instances.map (Instance.detach graph.source graph.idWidth))
      (graph'.instances.map (Instance.detach graph'.source graph.idWidth)) := by
    rw [List.forall₂_eq_eq_eq]
    exact h.table.instances
  exact List.forall₂_map_right_iff.mp (List.forall₂_map_left_iff.mp heq)

/-! ### Sizes -/

/-- Each instance whose class is in the dump has room for the layout of the class. -/
def SizesFit (graph : ObjectGraph) : Prop :=
  ∀ i, Instance.plain i ∈ graph.instances → (graph.class? i.classId).isSome →
    ∀ layout, graph.layout? i.classId = some layout →
      LayoutField.total graph.idWidth layout ≤ i.length.toNat

/-- Two plain instances that are the same when detached. -/
theorem exists_plain_of_detach {source source' : ByteSource} {width : IdWidth} {i : PlainInstance}
    {j : Instance} (h : (Instance.plain i).detach source width = j.detach source' width) :
    ∃ offset, j = .plain { i with offset } ∧
      (source.slice i.offset i.length.toNat).toOption =
        (source'.slice offset i.length.toNat).toOption := by
  cases j with
  | array a => simp [Instance.detach] at h
  | plain j =>
    simp only [Instance.detach, Prod.mk.injEq, Instance.plain.injEq, PlainInstance.mk.injEq] at h
    obtain ⟨⟨hid, hclass, hheap, htrace, -, hlength⟩, hslice⟩ := h
    refine ⟨j.offset, ?_, ?_⟩
    · rw [hid, hclass, hheap, htrace, hlength]
    · rw [hslice, hlength]

theorem SizesFit.of_alike (h : graph.Alike graph') (hfit : graph.SizesFit) : graph'.SizesFit := by
  intro i hi hclass layout hlayout
  have hmem := List.mem_map_of_mem (f := Instance.detach graph'.source graph.idWidth) hi
  rw [← h.table.instances] at hmem
  obtain ⟨j, hj, hsame⟩ := List.mem_map.mp hmem
  obtain ⟨offset, rfl, -⟩ := exists_plain_of_detach hsame.symm
  rw [← h.table.class?] at hclass
  rw [← h.layout?] at hlayout
  rw [← h.idWidth]
  exact hfit _ hj hclass layout hlayout

end HeapDump.ObjectGraph
