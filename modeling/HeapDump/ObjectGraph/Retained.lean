import HeapDump.Graph.Dominators
import HeapDump.ObjectGraph.Contents

/-! Retained sizes: the bytes kept alive by an object, which are its own and those of everything it
dominates, split by the heap they lie in.  Sizes are added up from the last node of the order of the
dominator tree to the first, so that a node is complete before it is added to its dominator. -/

namespace HeapDump

structure RetainedSizes where
  heapCount : Nat
  numbers : Std.TreeMap Ident Nat
  /-- The sizes of each node of the dominator tree by heap; those of the super-root are at 0. -/
  sizes : Array (Array UInt64)

namespace RetainedSizes

def zeros (heapCount : Nat) : Array UInt64 := Array.replicate heapCount 0

/-- The sizes of an object alone. -/
def alone (graph : ObjectGraph) (id : Ident) : Array UInt64 :=
  let zeros := zeros graph.heaps.size
  match graph.resolve id, graph.heapIndex? id with
  | some object, some heap => zeros.setIfInBounds heap (graph.shallowSize object)
  | _, _ => zeros

/-- Adds the sizes of node `n` to those of its parent. -/
def settle (parents : Dominance.Parents) (sizes : Array (Array UInt64)) (n : Nat) :
    Array (Array UInt64) :=
  match Dominance.parent? parents n with
  | none => sizes
  | some parent =>
    let own := sizes.getD n #[]
    sizes.modify parent fun total => total.zipWith (· + ·) own

def ofTree (graph : ObjectGraph) (tree : DominatorTree) : RetainedSizes where
  heapCount := graph.heaps.size
  numbers := tree.numbers
  sizes :=
    (List.range' 1 tree.size).reverse.foldl (settle tree.parents)
      (#[zeros graph.heaps.size] ++ tree.order.map (alone graph))

def row? (retained : RetainedSizes) (id : Ident) : Option (Array UInt64) := do
  retained.sizes[← retained.numbers[id]?]?

def rootRow (retained : RetainedSizes) : Array UInt64 :=
  retained.sizes.getD 0 #[]

/-- Absent for objects that no root reaches. -/
def size? (retained : RetainedSizes) (id : Ident) : Option UInt64 :=
  (retained.row? id).map (·.foldl (· + ·) 0)

/-- The part of a retained size that lies in one heap. -/
def sizeInHeap? (retained : RetainedSizes) (id : Ident) (heap : Nat) : Option UInt64 :=
  (retained.row? id).map (·.getD heap 0)

/-- The size of everything that the roots reach. -/
def total (retained : RetainedSizes) : UInt64 :=
  retained.rootRow.foldl (· + ·) 0

def totalInHeap (retained : RetainedSizes) (heap : Nat) : UInt64 :=
  retained.rootRow.getD heap 0

end RetainedSizes

namespace ObjectGraph

def topologicalOrder (graph : ObjectGraph) : Except DumpError (List Ident) :=
  graph.rooted.topologicalOrder

def dominators (graph : ObjectGraph) : Except DumpError DominatorTree :=
  DominatorTree.ofGraph graph.rooted

def retainedSizes (graph : ObjectGraph) : Except DumpError RetainedSizes :=
  return RetainedSizes.ofTree graph (← graph.dominators)

end ObjectGraph

end HeapDump
