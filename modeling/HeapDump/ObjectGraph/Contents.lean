import HeapDump.ObjectGraph.Basic
import HeapDump.Graph.Traversal

/-! The contents of objects, read from the dump when they are asked for: the field values of instances,
the elements of arrays, and what objects refer to. -/

namespace HeapDump

/-- A field value with its reference looked up.  A reference to an object that the dump does not hold is as
good as null. -/
inductive ResolvedValue
  | null
  | object (target : HeapObject)
  | primitive (value : Value)
deriving DecidableEq, Repr

namespace ObjectGraph

/-! ### Instances -/

/-- The value of one field in the bytes of an instance. -/
def fieldValue (graph : ObjectGraph) (i : PlainInstance) (blob : List UInt8) (f : LayoutField) :
    Except DumpError (Field × Value) :=
  match Slice.value graph.idWidth f.field.type (blob.drop f.offset) with
  | .ok (value, _) => .ok (f.field, value)
  | .error _ => .error (.malformed (i.offset + f.offset) (.fieldCut f.field.name i.id))

/-- The values of all fields, in the order of the layout.  An instance of a class that the dump does not
hold has none. -/
def fieldValues (graph : ObjectGraph) (i : PlainInstance) :
    Except DumpError (List (Field × Value)) :=
  match graph.layout? i.classId with
  | none => .ok []
  | some layout => do
    let blob ← graph.source.slice i.offset i.length.toNat
    layout.mapM (graph.fieldValue i blob)

/-- The first value of a field called `name`. -/
def valueNamed? (values : List (Field × Value)) (name : String) : Option Value :=
  (values.find? (·.1.name = name)).map (·.2)

/-- The value of the field called `name`; that of a class comes before those of its superclasses. -/
def fieldNamed? (graph : ObjectGraph) (i : PlainInstance) (name : String) :
    Except DumpError (Option Value) :=
  return valueNamed? (← graph.fieldValues i) name

def resolveValue (graph : ObjectGraph) : Value → ResolvedValue
  | .object target => ((target.bind graph.resolve).map .object).getD .null
  | value => .primitive value

/-- The field values with their references looked up. -/
def resolvedValues (graph : ObjectGraph) (i : PlainInstance) :
    Except DumpError (List (Field × ResolvedValue)) :=
  return (← graph.fieldValues i).map fun (field, value) => (field, graph.resolveValue value)

/-! ### Arrays -/

/-- The elements of an array, each as its bytes.  An array without contents has none. -/
def elementBytes (graph : ObjectGraph) (a : ArrayInstance) :
    Except DumpError (List (List UInt8)) :=
  match a.offset with
  | none => .ok []
  | some offset => do
    let contents ← graph.source.slice offset (a.contentsLength graph.idWidth)
    return Word.split (a.elementType.size graph.idWidth) a.count.toNat contents

/-- The elements of an array as values. -/
def arrayValues (graph : ObjectGraph) (a : ArrayInstance) : Except DumpError (List Value) :=
  return (← graph.elementBytes a).map (Value.ofBytes a.elementType)

/-- What the slots of an object array refer to.  A primitive array has no slots. -/
def arrayTargets (graph : ObjectGraph) (a : ArrayInstance) :
    Except DumpError (List (Option Ident)) :=
  match a.elementType with
  | .primitive _ => .ok []
  | .object => return (← graph.elementBytes a).map fun bytes => (Ident.ofBytes bytes).nonNull?

/-! ### References -/

/-- Every object that an object names: in its static fields, its fields or its slots. -/
def targets (graph : ObjectGraph) : HeapObject → Except DumpError (List Ident)
  | .classObject c => .ok (c.statics.filterMap (·.value.target?))
  | .instance (.plain i) => return (← graph.fieldValues i).filterMap (·.2.target?)
  | .instance (.array a) => return (← graph.arrayTargets a).filterMap id

/-- The objects that an object refers to, as far as the dump holds them. -/
def references (graph : ObjectGraph) (id : Ident) : Except DumpError (List Ident) :=
  match graph.resolve id with
  | none => .ok []
  | some object => return (← graph.targets object).filter graph.contains

/-- The objects that are roots, as far as the dump holds them, each once. -/
def rootObjects (graph : ObjectGraph) : List Ident :=
  ((graph.roots.map (·.object)).filter graph.contains).eraseDups

theorem mem_nodes_of_contains {graph : ObjectGraph} {id : Ident} (h : graph.contains id = true) :
    id ∈ graph.index.keys :=
  Std.TreeMap.mem_keys.mpr h

/-- The graph of references. -/
def rooted (graph : ObjectGraph) : RootedGraph DumpError where
  nodes := graph.index.keys
  roots := graph.rootObjects
  successors := graph.references
  roots_mem r hr := by
    rw [rootObjects, List.mem_eraseDups] at hr
    exact mem_nodes_of_contains (List.mem_filter.mp hr).2
  successors_mem u vs h v hv := by
    rw [references] at h
    split at h
    · cases h
      cases hv
    · rename_i object _
      cases htargets : graph.targets object with
      | error e => rw [htargets] at h; cases h
      | ok targets =>
        rw [htargets] at h
        cases h
        exact mem_nodes_of_contains (List.mem_filter.mp hv).2

end ObjectGraph

end HeapDump
