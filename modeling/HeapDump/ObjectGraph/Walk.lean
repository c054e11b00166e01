import HeapDump.ObjectGraph.Contents

/-! Walks through the references between objects.  A walk enters each object once, the first time it is
reached, and leaves it when everything reached through it has been entered.  It does not go into the
references of objects that are not to be descended into, and it never leaves those.  Identifiers that
stand for nothing are passed over. -/

namespace HeapDump

inductive WalkEvent
  | enter (object : HeapObject)
  | leave (object : HeapObject)
deriving DecidableEq, Repr

structure Walk where
  met : Std.TreeSet Ident
  events : Array WalkEvent

namespace Walk

def empty : Walk := ⟨∅, #[]⟩

def enter (walk : Walk) (object : HeapObject) : Walk :=
  ⟨walk.met.insert object.id, walk.events.push (.enter object)⟩

def leave (walk : Walk) (object : HeapObject) : Walk :=
  { walk with events := walk.events.push (.leave object) }

/-- The references of an object; a failure ends the walk and keeps what has happened so far. -/
def references (graph : ObjectGraph) (id : Ident) : EStateM DumpError Walk (List Ident) :=
  fun walk =>
    match graph.references id with
    | .ok ids => .ok ids walk
    | .error e => .error e walk

/-- Walks on from `id`.  The depth of a walk is at most the number of objects, so `fuel` beyond that number
is never used up. -/
def visit (graph : ObjectGraph) (descend : HeapObject → Bool) :
    (fuel : Nat) → Ident → EStateM DumpError Walk Unit
  | 0, _ => return
  | fuel + 1, id => do
    match graph.resolve id with
    | none => return
    | some object =>
      if object.id ∈ (← get).met then return
      modify (·.enter object)
      if descend object then
        let ids ← references graph id
        ids.forM (visit graph descend fuel)
        modify (·.leave object)

/-- The walk from several starts, one after another. -/
def fromStarts (graph : ObjectGraph) (descend : HeapObject → Bool) (starts : List Ident) :
    EStateM.Result DumpError Walk Unit :=
  starts.forM (visit graph descend (graph.index.size + 1)) empty

/-- The walk from all roots. -/
def fromRoots (graph : ObjectGraph) (descend : HeapObject → Bool) :
    EStateM.Result DumpError Walk Unit :=
  fromStarts graph descend (graph.roots.map (·.object))

end Walk

end HeapDump
