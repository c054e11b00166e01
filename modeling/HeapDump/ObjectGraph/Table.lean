import HeapDump.ObjectGraph.Census

/-! Looking objects up, and linking classes to their subclasses and instances.  Where two objects of a dump
share an identifier, the first one has it: only it is found, and only it gets subclasses and
instances. -/

namespace HeapDump

/-- The objects of a dump by heap, and the place of each identifier. -/
structure ObjectTable where
  heaps : Array Heap
  index : Std.TreeMap Ident Location

namespace ObjectTable

/-- Heap by heap. -/
def classes (table : ObjectTable) : List ClassObject :=
  table.heaps.toList.flatMap (·.classes.toList)

/-- Heap by heap. -/
def instances (table : ObjectTable) : List Instance :=
  table.heaps.toList.flatMap (·.instances.toList)

/-- Heap by heap; an object may be a root more than once. -/
def roots (table : ObjectTable) : List Root :=
  table.heaps.toList.flatMap (·.roots.toList)

def contains (table : ObjectTable) (id : Ident) : Bool :=
  table.index.contains id

/-- The object at a place. -/
def at? (table : ObjectTable) (location : Location) : Option HeapObject := do
  let heap ← table.heaps[location.heap]?
  match location.slot with
  | .classSlot i => return .classObject (← heap.classes[i]?)
  | .instanceSlot i => return .instance (← heap.instances[i]?)

/-- The object that an identifier stands for. -/
def resolve (table : ObjectTable) (id : Ident) : Option HeapObject := do
  table.at? (← table.index[id]?)

def class? (table : ObjectTable) (id : Ident) : Option ClassObject := do
  (← table.resolve id).class?

def instance? (table : ObjectTable) (id : Ident) : Option Instance := do
  (← table.resolve id).instance?

/-- The index of the heap that holds an object. -/
def heapIndex? (table : ObjectTable) (id : Ident) : Option Nat :=
  table.index[id]?.map (·.heap)

/-- The class that is called `name`; of several the first one. -/
def classByName? (table : ObjectTable) (name : String) : Option ClassObject := do
  table.class? (← table.classes.find? (·.name = name)).id

def superclass? (table : ObjectTable) (c : ClassObject) : Option ClassObject := do
  table.class? (← c.superclass)

def classOf? (table : ObjectTable) (i : Instance) : Option ClassObject := do
  table.class? (← i.classId?)

end ObjectTable

/-! ### Links -/

/-- The members of classes, each list in the order in which its members were added. -/
abbrev Links := Std.TreeMap Ident (Array Ident)

namespace Links

/-- The links of pairs of a class and a member. -/
def ofPairs (pairs : List (Ident × Ident)) : Links :=
  pairs.foldl
    (fun links (classId, member) =>
      links.insert classId ((links.getD classId #[]).push member))
    ∅

def members (links : Links) (classId : Ident) : List Ident :=
  (links.getD classId #[]).toList

end Links

namespace ObjectTable

/-- The class that an instance belongs to.  A primitive array does not name its class, so it belongs to the
class named after its type, in the spelling that is tried first. -/
def namedClass? (table : ObjectTable) : Instance → Option Ident
  | .plain i => some i.classId
  | .array a =>
    match a.elementType with
    | .object => a.classId
    | .primitive type =>
      type.arrayClassNames.findSome? fun name =>
        (table.classes.find? (·.name = name)).map (·.id)

/-- The class of an instance, where the dump holds it. -/
def presentClass? (table : ObjectTable) (i : Instance) : Option Ident := do
  let id ← table.namedClass? i
  if (table.class? id).isSome then some id else none

/-- Pairs of a superclass in the dump and a class. -/
def subclassPairs (table : ObjectTable) : List (Ident × Ident) :=
  table.classes.filterMap fun c => (table.superclass? c).map fun s => (s.id, c.id)

/-- Pairs of a class in the dump and an instance of it. -/
def instancePairs (table : ObjectTable) : List (Ident × Ident) :=
  table.instances.filterMap fun i => (table.presentClass? i).map fun c => (c, i.id)

/-- An array with the class that was found for it. -/
def assignClass (table : ObjectTable) (i : Instance) : Instance :=
  match i, table.presentClass? i with
  | .array a, some id => .array { a with classId := some id }
  | i, _ => i

/-- Whether the class at a place is the one that its identifier stands for. -/
def isIndexed (table : ObjectTable) (location : Location) (id : Ident) : Bool :=
  table.index[id]? = some location

/-- The table with the members of every class and the class of every array. -/
def link (table : ObjectTable) : ObjectTable :=
  let subclasses := Links.ofPairs table.subclassPairs
  let instances := Links.ofPairs table.instancePairs
  let linkClass (heap slot : Nat) (c : ClassObject) : ClassObject :=
    if table.isIndexed ⟨heap, .classSlot slot⟩ c.id then
      { c with subclasses := subclasses.members c.id, instances := instances.members c.id }
    else c
  let linkHeap (i : Nat) (heap : Heap) : Heap :=
    { heap with
      classes := heap.classes.mapIdx (linkClass i)
      instances := heap.instances.map table.assignClass }
  { table with heaps := table.heaps.mapIdx linkHeap }

/-- What does not link: superclasses that the dump does not hold, and the number of instances whose class
it does not hold. -/
def linkNotes (table : ObjectTable) : List Diagnostic :=
  let superclasses := table.classes.filterMap fun c =>
    match c.superclass, table.superclass? c with
    | some s, none => some (.missingSuperclass c.id s)
    | _, _ => none
  let homeless := table.instances.countP fun i => (table.presentClass? i).isNone
  superclasses ++ if homeless = 0 then [] else [.withoutClass homeless]

end ObjectTable

end HeapDump
