import HeapDump.Graph.Basic
import Std.Data.TreeSet

/-! Depth first traversal from the roots.  A node is found when it is met for the first time and finished
when all its successors have been looked at.  The traversal also keeps every edge it looks at, with
those from the super-root above all roots to each root.  Its order is the reverse of the order of
finishing: a node comes before everything reachable from it, except where the graph has cycles. -/

namespace HeapDump

structure Traversal where
  /-- The nodes in the order in which they were found. -/
  found : Array Ident
  /-- The nodes found, for looking up. -/
  seen : Std.TreeSet Ident
  /-- The nodes in the order in which they were finished. -/
  finished : Array Ident
  /-- The edges looked at; an edge without a start is one from the super-root. -/
  edges : Array (Option Ident × Ident)

namespace Traversal

variable {ε : Type}

def empty : Traversal := ⟨#[], ∅, #[], #[]⟩

def find (t : Traversal) (v : Ident) : Traversal :=
  { t with found := t.found.push v, seen := t.seen.insert v }

def finish (t : Traversal) (v : Ident) : Traversal :=
  { t with finished := t.finished.push v }

def look (t : Traversal) (start : Option Ident) (v : Ident) : Traversal :=
  { t with edges := t.edges.push (start, v) }

/-- Goes on through `v` and what it reaches, unless `v` has been found before.  The depth of the search is
at most the number of nodes, so `fuel` beyond that number is never used up. -/
def visit (graph : RootedGraph ε) : (fuel : Nat) → Traversal → Ident → Except ε Traversal
  | 0, t, _ => .ok t
  | fuel + 1, t, v =>
    if v ∈ t.seen then .ok t
    else do
      let next ← graph.successors v
      let t ← next.foldlM (fun t w => visit graph fuel (t.look (some v) w) w) (t.find v)
      return t.finish v

/-- The traversal of all that the roots reach, or the failure of the first node found that fails. -/
def ofGraph (graph : RootedGraph ε) : Except ε Traversal :=
  graph.roots.foldlM (fun t r => visit graph (graph.nodes.length + 1) (t.look none r) r) empty

def order (t : Traversal) : List Ident :=
  t.finished.toList.reverse

end Traversal

/-- The nodes that the roots reach, each before what it reaches as far as cycles allow. -/
def RootedGraph.topologicalOrder {ε : Type} (graph : RootedGraph ε) : Except ε (List Ident) :=
  return (← Traversal.ofGraph graph).order

end HeapDump
