import HeapDump.Record.Body
import HeapDump.SubRecord

/-! The objects of a dump.  Every object lies in a heap and is a class or an instance; an instance is plain
or an array.  Instances know where their bytes lie in the dump.  Classes know their superclass,
subclasses and instances by identifier. -/

namespace HeapDump

structure Field where
  name : String
  type : FieldType
deriving DecidableEq, Repr

structure StaticField where
  field : Field
  value : Value
deriving DecidableEq, Repr

/-- A field and where it lies in the bytes of an instance. -/
structure LayoutField where
  field : Field
  offset : Nat
  declaringClass : Ident
deriving DecidableEq, Repr

structure ClassObject where
  id : Ident
  /-- As written in the dump, such as `java/lang/String` or `[I`. -/
  name : String
  heapId : UInt32
  superclass : Option Ident
  loader : Option Ident
  trace : Serial
  /-- The declared number of bytes of an instance, inherited fields included. -/
  instanceSize : UInt32
  /-- The fields that the class declares itself. -/
  fields : List Field
  statics : List StaticField
  instances : List Ident
  subclasses : List Ident
deriving DecidableEq, Repr

namespace ClassObject

/-- The name with dots, as in source text. -/
def displayName (c : ClassObject) : String :=
  String.ofList (c.name.toList.map fun ch => if ch = '/' then '.' else ch)

def staticField? (c : ClassObject) (name : String) : Option StaticField :=
  c.statics.find? (·.field.name = name)

/-- The bytes that the static values take. -/
def staticSize (width : IdWidth) (c : ClassObject) : UInt64 :=
  (c.statics.map fun s => UInt64.ofNat (s.field.type.size width)).foldl (· + ·) 0

/-- Classes are compared by name, so that sorted lists agree between dumps whose identifiers differ. -/
def compareByName (a b : ClassObject) : Ordering :=
  compare a.name b.name

end ClassObject

structure PlainInstance where
  id : Ident
  classId : Ident
  heapId : UInt32
  trace : Serial
  /-- Where the bytes of its fields start. -/
  offset : Nat
  length : UInt32
deriving DecidableEq, Repr

structure ArrayInstance where
  id : Ident
  elementType : FieldType
  /-- Absent for a primitive array whose class is not in the dump. -/
  classId : Option Ident
  heapId : UInt32
  trace : Serial
  count : UInt32
  /-- Where the elements start, unless the dump leaves them out. -/
  offset : Option Nat
deriving DecidableEq, Repr

/-- The bytes that the elements take, also where they are left out. -/
def ArrayInstance.contentsLength (width : IdWidth) (a : ArrayInstance) : Nat :=
  a.count.toNat * a.elementType.size width

inductive Instance
  | plain (i : PlainInstance)
  | array (a : ArrayInstance)
deriving DecidableEq, Repr

namespace Instance

def id : Instance → Ident
  | plain i => i.id
  | array a => a.id

def classId? : Instance → Option Ident
  | plain i => some i.classId
  | array a => a.classId

def heapId : Instance → UInt32
  | plain i => i.heapId
  | array a => a.heapId

def trace : Instance → Serial
  | plain i => i.trace
  | array a => a.trace

def plain? : Instance → Option PlainInstance
  | plain i => some i
  | array _ => none

def array? : Instance → Option ArrayInstance
  | plain _ => none
  | array a => some a

end Instance

/-- What an identifier may stand for. -/
inductive HeapObject
  | classObject (c : ClassObject)
  | instance (i : Instance)
deriving DecidableEq, Repr

namespace HeapObject

def id : HeapObject → Ident
  | classObject c => c.id
  | .instance i => i.id

def heapId : HeapObject → UInt32
  | classObject c => c.heapId
  | .instance i => i.heapId

def class? : HeapObject → Option ClassObject
  | classObject c => some c
  | .instance _ => none

def instance? : HeapObject → Option Instance
  | classObject _ => none
  | .instance i => some i

end HeapObject

/-- A named part of a dump.  A dump of a Java virtual machine has only the default heap. -/
structure Heap where
  id : UInt32
  name : String
  classes : Array ClassObject
  instances : Array Instance
  /-- The roots declared while this heap was current. -/
  roots : Array Root
deriving DecidableEq, Repr

namespace Heap

def defaultId : UInt32 := 0

/-- The name of a heap that the dump does not name.  Android gives its heaps the codes of letters. -/
def defaultName (id : UInt32) : String :=
  if id = defaultId then "default"
  else if id = 'A'.val then "app"
  else if id = 'I'.val then "image"
  else if id = 'Z'.val then "zygote"
  else s!"heap-{id}"

end Heap

/-- A place among the classes or among the instances of a heap. -/
inductive Slot
  | classSlot (index : Nat)
  | instanceSlot (index : Nat)
deriving DecidableEq, Repr

/-- The place of an object: the index of its heap and its place there. -/
structure Location where
  heap : Nat
  slot : Slot
deriving DecidableEq, Repr

/-- A stack frame with its texts. -/
structure StackFrame where
  id : Ident
  methodName : String
  signature : String
  sourceFile : String
  classSerial : Serial
  line : LineNumber
deriving DecidableEq, Repr

structure StackTrace where
  serial : Serial
  thread : Serial
  /-- Innermost first, without the frames that the dump does not hold. -/
  frames : List StackFrame
deriving DecidableEq, Repr

end HeapDump
