import HeapDump.Graph.Traversal
import HeapDump.Text.Hex
import Std.Data.TreeMap

/-! Immediate dominators.  A node dominates another if every path from the super-root to the other goes
through it, and the nearest such node is the immediate dominator.  The nodes are numbered from 1 in
the order of a traversal, and 0 is the super-root.  Each round goes through the nodes in that order
and gives a node the nearest common ancestor of its predecessors in the tree built so far, until a
round changes nothing. -/

namespace HeapDump

/-- What dominates a node. -/
inductive Dominator
  /-- The super-root above all roots. -/
  | root
  | object (id : Ident)
deriving DecidableEq, Repr

def Dominator.text : Dominator → String
  | root => "root"
  | object id => Text.hexIdent id.val

namespace Dominance

/-- The parent of each number in a tree that is being built; a number without a parent is not in the tree
yet.  The parent of 0 is 0, and any other parent is smaller than its child. -/
abbrev Parents := Array (Option Nat)

def parent? (parents : Parents) (n : Nat) : Option Nat :=
  parents.getD n none

def up (parents : Parents) (n : Nat) : Nat :=
  (parent? parents n).getD 0

/-- Moves the greater of two numbers up until they meet, for at most `fuel` moves. -/
def meet (parents : Parents) : (fuel a b : Nat) → Nat
  | 0, a, _ => a
  | fuel + 1, a, b =>
    if a = b then a
    else if b < a then meet parents fuel (up parents a) b
    else meet parents fuel a (up parents b)

/-- The nearest common ancestor.  Every move makes one of the two numbers smaller. -/
def intersect (parents : Parents) (a b : Nat) : Nat :=
  meet parents (a + b) a b

/-- The nearest common ancestor of those predecessors that are in the tree. -/
def nearest (parents : Parents) (predecessors : List Nat) : Option Nat :=
  predecessors.foldl
    (fun best p =>
      if (parent? parents p).isNone then best
      else
        match best with
        | none => some p
        | some b => some (intersect parents p b))
    none

/-- Gives one node its parent, and notes whether that changed the tree. -/
def improve (predecessors : Array (List Nat)) (state : Parents × Bool) (node : Nat) :
    Parents × Bool :=
  let best := nearest state.1 (predecessors.getD node [])
  if parent? state.1 node = best then state else (state.1.setIfInBounds node best, true)

/-- One round over the nodes from 1 to `count`. -/
def pass (predecessors : Array (List Nat)) (count : Nat) (parents : Parents) : Parents × Bool :=
  (List.range' 1 count).foldl (improve predecessors) (parents, false)

/-- Rounds until one changes nothing, at most `fuel` of them. -/
def settle (predecessors : Array (List Nat)) (count : Nat) : (fuel : Nat) → Parents → Parents
  | 0, parents => parents
  | fuel + 1, parents =>
    match pass predecessors count parents with
    | (next, true) => settle predecessors count fuel next
    | (next, false) => next

/-- The tree that holds the super-root only. -/
def start (count : Nat) : Parents :=
  (Array.replicate (count + 1) none).setIfInBounds 0 (some 0)

/-- The finished tree.  The first round gives every node a parent, and each later round but the last moves
one to a smaller number, so there are fewer rounds than pairs of numbers. -/
def solve (predecessors : Array (List Nat)) (count : Nat) : Parents :=
  settle predecessors count ((count + 1) * (count + 1)) (start count)

end Dominance

structure DominatorTree where
  /-- The reachable nodes; node `n` is at index `n - 1`. -/
  order : Array Ident
  numbers : Std.TreeMap Ident Nat
  parents : Dominance.Parents
  /-- The nodes below each number, in the order of the nodes. -/
  children : Array (Array Ident)

namespace DominatorTree

variable {ε : Type}

/-- The numbers of nodes by their place in an order, from 1 on. -/
def number (order : List Ident) : Std.TreeMap Ident Nat :=
  (order.zipIdx 1).foldl (fun numbers (id, n) => numbers.insert id n) ∅

/-- For each number up to `count`, the starts of the edges that end there. -/
def predecessors (numbers : Std.TreeMap Ident Nat) (count : Nat)
    (edges : List (Option Ident × Ident)) : Array (List Nat) :=
  edges.foldl
    (fun table (start, stop) =>
      let source := start.elim 0 (numbers.getD · 0)
      table.modify (numbers.getD stop 0) (source :: ·))
    (Array.replicate (count + 1) [])

/-- Puts a node below the parent of its number. -/
def putBelow (parents : Dominance.Parents) (table : Array (Array Ident)) (node : Ident × Nat) :
    Array (Array Ident) :=
  match Dominance.parent? parents node.2 with
  | some p => table.modify p (·.push node.1)
  | none => table

/-- The nodes below each number, put there in their order. -/
def childrenOf (parents : Dominance.Parents) (order : List Ident) : Array (Array Ident) :=
  (order.zipIdx 1).foldl (putBelow parents) (Array.replicate (order.length + 1) #[])

def ofTraversal (t : Traversal) : DominatorTree :=
  let numbers := number t.order
  let count := t.order.length
  let parents := Dominance.solve (predecessors numbers count t.edges.toList) count
  { order := t.order.toArray, numbers, parents, children := childrenOf parents t.order }

def ofGraph (graph : RootedGraph ε) : Except ε DominatorTree :=
  return ofTraversal (← Traversal.ofGraph graph)

/-- The number of reachable nodes. -/
def size (tree : DominatorTree) : Nat := tree.order.size

/-- The reachable nodes, each after its immediate dominator. -/
def reachable (tree : DominatorTree) : List Ident := tree.order.toList

def contains (tree : DominatorTree) (id : Ident) : Bool := tree.numbers.contains id

def ofNumber : (order : Array Ident) → Nat → Option Dominator
  | _, 0 => some .root
  | order, n + 1 => order[n]?.map .object

def immediate? (tree : DominatorTree) (id : Ident) : Option Dominator := do
  let n ← tree.numbers[id]?
  ofNumber tree.order (← Dominance.parent? tree.parents n)

def number? (tree : DominatorTree) : Dominator → Option Nat
  | .root => some 0
  | .object id => tree.numbers[id]?

/-- The nodes that a dominator immediately dominates. -/
def dominatedBy (tree : DominatorTree) (dominator : Dominator) : List Ident :=
  match tree.number? dominator with
  | some n => (tree.children.getD n #[]).toList
  | none => []

/-- The dominators of a node, nearest first, for at most `fuel` steps. -/
def chainFrom (tree : DominatorTree) : (fuel : Nat) → Ident → List Dominator
  | 0, _ => []
  | fuel + 1, id =>
    match tree.immediate? id with
    | none => []
    | some .root => [.root]
    | some (.object parent) => .object parent :: chainFrom tree fuel parent

/-- The dominators of a node up to the super-root, nearest first.  None of them occurs twice, so there are
at most as many as reachable nodes. -/
def chain (tree : DominatorTree) (id : Ident) : List Dominator :=
  tree.chainFrom tree.size id

end DominatorTree

end HeapDump
