import HeapDump.Ident

/-! Directed graphs of objects with roots.  The successors of a node are asked for when they are needed,
and asking may fail.  A graph names a finite list of nodes that holds its roots and every successor,
so searches of it end. -/

namespace HeapDump

structure RootedGraph (ε : Type) where
  nodes : List Ident
  /-- A root may be given more than once. -/
  roots : List Ident
  successors : Ident → Except ε (List Ident)
  roots_mem : ∀ r ∈ roots, r ∈ nodes
  successors_mem : ∀ u vs, successors u = .ok vs → ∀ v ∈ vs, v ∈ nodes

namespace RootedGraph

variable {ε : Type}

/-- The graph of a list of edges.  Successors keep the order of the edges, and a node with a failure has
none to give. -/
def ofEdges (roots : List Ident) (edges : List (Ident × Ident)) (failure : Ident → Option ε) :
    RootedGraph ε where
  nodes := roots ++ edges.map Prod.snd
  roots := roots
  successors u :=
    match failure u with
    | some e => .error e
    | none => .ok (edges.filterMap fun edge => if edge.1 = u then some edge.2 else none)
  roots_mem r hr := List.mem_append_left _ hr
  successors_mem u vs h v hv := by
    split at h
    · cases h
    · cases h
      obtain ⟨edge, hedge, hv⟩ := List.mem_filterMap.mp hv
      split at hv
      · cases hv
        exact List.mem_append_right _ (List.mem_map_of_mem hedge)
      · cases hv

end RootedGraph

end HeapDump
