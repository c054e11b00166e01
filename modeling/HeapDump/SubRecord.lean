import HeapDump.Record
import HeapDump.SubRecord.Tag

/-! Sub-records: what the bodies of heap dump records hold.  A body is a row of sub-records, each a tag
and the fields of that tag.  The bytes of instances and the elements of arrays stay in the dump;
their sub-records say where they start. -/

namespace HeapDump

/-- How an object came to be a root.  A frame is absent where the dump writes that it is unknown. -/
inductive RootOrigin
  | unknown
  | nativeStatic (reference : Ident)
  | nativeLocal (thread : Serial) (frame : Option UInt32)
  | javaLocal (thread : Serial) (frame : Option UInt32)
  | nativeStack (thread : Serial)
  | systemClass
  | threadBlock (thread : Serial)
  | busyMonitor
  | threadObject (thread : Serial)
  | internedString
  | finalizing
  | debugger
  | referenceCleanup
  | vmInternal
  | nativeMonitor (thread : Serial) (frame : Option UInt32)
  | unreachable
deriving DecidableEq, Repr

namespace RootOrigin

def kind : RootOrigin → RootKind
  | unknown => .unknown
  | nativeStatic _ => .nativeStatic
  | nativeLocal _ _ => .nativeLocal
  | javaLocal _ _ => .javaLocal
  | nativeStack _ => .nativeStack
  | systemClass => .systemClass
  | threadBlock _ => .threadBlock
  | busyMonitor => .busyMonitor
  | threadObject _ => .threadObject
  | internedString => .internedString
  | finalizing => .finalizing
  | debugger => .debugger
  | referenceCleanup => .referenceCleanup
  | vmInternal => .vmInternal
  | nativeMonitor _ _ => .nativeMonitor
  | unreachable => .unreachable

def thread? : RootOrigin → Option Serial
  | nativeLocal thread _ | javaLocal thread _ | nativeMonitor thread _ => some thread
  | nativeStack thread | threadBlock thread | threadObject thread => some thread
  | _ => none

/-- The depth of the frame in the stack of the thread. -/
def frame? : RootOrigin → Option UInt32
  | nativeLocal _ frame | javaLocal _ frame | nativeMonitor _ frame => frame
  | _ => none

def reference? : RootOrigin → Option Ident
  | nativeStatic reference => some reference
  | _ => none

end RootOrigin

structure Root where
  object : Ident
  origin : RootOrigin
deriving DecidableEq, Repr

/-- A thread and its object, which is null for a thread that native code has just attached. -/
structure ThreadObject where
  object : Option Ident
  thread : Serial
  trace : Serial
deriving DecidableEq, Repr

/-- The objects after a switch belong to the named heap. -/
structure HeapSwitch where
  heap : UInt32
  nameId : Ident
deriving DecidableEq, Repr

structure StaticEntry where
  nameId : Ident
  type : FieldType
  value : Value
deriving DecidableEq, Repr

structure FieldEntry where
  nameId : Ident
  type : FieldType
deriving DecidableEq, Repr

/-- A class with the fields that it declares itself. -/
structure ClassDump where
  id : Ident
  trace : Serial
  superclass : Option Ident
  loader : Option Ident
  signers : Option Ident
  protectionDomain : Option Ident
  instanceSize : UInt32
  statics : List StaticEntry
  fields : List FieldEntry
deriving DecidableEq, Repr

structure InstanceDump where
  id : Ident
  trace : Serial
  classId : Ident
  /-- Where the bytes of its fields start. -/
  offset : Nat
  length : UInt32
deriving DecidableEq, Repr

structure ObjectArrayDump where
  id : Ident
  trace : Serial
  classId : Ident
  count : UInt32
  /-- Where the elements start. -/
  offset : Nat
deriving DecidableEq, Repr

structure PrimitiveArrayDump where
  id : Ident
  trace : Serial
  type : PrimitiveType
  count : UInt32
  /-- Where the elements start, unless the dump leaves them out. -/
  offset : Option Nat
deriving DecidableEq, Repr

/-- The bytes that the elements take, also where they are left out. -/
def PrimitiveArrayDump.contentsLength (array : PrimitiveArrayDump) : Nat :=
  array.count.toNat * array.type.size

inductive SubRecord
  | root (root : Root)
  | thread (thread : ThreadObject)
  | heapSwitch (info : HeapSwitch)
  | classDump (dump : ClassDump)
  | instance (dump : InstanceDump)
  | objectArray (dump : ObjectArrayDump)
  | primitiveArray (dump : PrimitiveArrayDump)
deriving DecidableEq, Repr

/-! ### Fields of sub-records -/

/-- A frame number, which is all ones where the frame is unknown. -/
def frameNumber? (number : UInt32) : Option UInt32 :=
  if number = 0xFFFFFFFF then none else some number

namespace Scan

def frameNumber : Scan (Option UInt32) :=
  return frameNumber? (← u32)

/-- A failure at a place behind the scan. -/
def malformed {α : Type} (offset : Nat) (fault : Fault) : Scan α :=
  fail (.malformed offset fault)

def fieldType : Scan FieldType := do
  let offset ← position
  let code ← u8
  match FieldType.ofCode? code with
  | some type => return type
  | none => malformed offset (.unknownFieldType code)

def primitiveType : Scan PrimitiveType := do
  let offset ← position
  let code ← u8
  match PrimitiveType.ofCode? code with
  | some type => return type
  | none => malformed offset (.notPrimitive code)

end Scan

/-- What a root of the given kind says after its object. -/
def RootOrigin.scan (width : IdWidth) : RootKind → Scan RootOrigin
  | .nativeStatic => return nativeStatic (← Scan.ident width)
  | .nativeLocal => return nativeLocal (← Scan.u32) (← Scan.frameNumber)
  | .javaLocal => return javaLocal (← Scan.u32) (← Scan.frameNumber)
  | .nativeMonitor => return nativeMonitor (← Scan.u32) (← Scan.frameNumber)
  | .nativeStack => return nativeStack (← Scan.u32)
  | .threadBlock => return threadBlock (← Scan.u32)
  | .threadObject => return threadObject (← Scan.u32)
  | .unknown => return unknown
  | .systemClass => return systemClass
  | .busyMonitor => return busyMonitor
  | .internedString => return internedString
  | .finalizing => return finalizing
  | .debugger => return debugger
  | .referenceCleanup => return referenceCleanup
  | .vmInternal => return vmInternal
  | .unreachable => return unreachable

def Root.scan (width : IdWidth) (kind : RootKind) : Scan Root := do
  let object ← Scan.ident width
  let origin ← RootOrigin.scan width kind
  return { object, origin }

def ThreadObject.scan (width : IdWidth) : Scan ThreadObject := do
  let object ← Scan.reference width
  let thread ← Scan.u32
  let trace ← Scan.u32
  return { object, thread, trace }

def HeapSwitch.scan (width : IdWidth) : Scan HeapSwitch := do
  let heap ← Scan.u32
  let nameId ← Scan.ident width
  return { heap, nameId }

/-- An entry of the constant pool, whose contents are passed over. -/
def ClassDump.scanConstant (width : IdWidth) : Scan Unit := do
  let _index ← Scan.u16
  let type ← Scan.fieldType
  Scan.skip (type.size width)

def StaticEntry.scan (width : IdWidth) : Scan StaticEntry := do
  let nameId ← Scan.ident width
  let type ← Scan.fieldType
  let value ← Scan.value width type
  return { nameId, type, value }

def FieldEntry.scan (width : IdWidth) : Scan FieldEntry := do
  let nameId ← Scan.ident width
  let type ← Scan.fieldType
  return { nameId, type }

/-- Two reserved identifiers stand before the instance size. -/
def ClassDump.scan (width : IdWidth) : Scan ClassDump := do
  let id ← Scan.ident width
  let trace ← Scan.u32
  let superclass ← Scan.reference width
  let loader ← Scan.reference width
  let signers ← Scan.reference width
  let protectionDomain ← Scan.reference width
  let _reserved ← Scan.ident width
  let _reserved ← Scan.ident width
  let instanceSize ← Scan.u32
  let _constants ← (scanConstant width).times (← Scan.u16).toNat
  let statics ← (StaticEntry.scan width).times (← Scan.u16).toNat
  let fields ← (FieldEntry.scan width).times (← Scan.u16).toNat
  return { id, trace, superclass, loader, signers, protectionDomain, instanceSize, statics, fields }

def InstanceDump.scan (width : IdWidth) : Scan InstanceDump := do
  let id ← Scan.ident width
  let trace ← Scan.u32
  let classId ← Scan.ident width
  let length ← Scan.u32
  let offset ← Scan.position
  Scan.skip length.toNat
  return { id, trace, classId, offset, length }

def ObjectArrayDump.scan (width : IdWidth) : Scan ObjectArrayDump := do
  let id ← Scan.ident width
  let trace ← Scan.u32
  let count ← Scan.u32
  let classId ← Scan.ident width
  let offset ← Scan.position
  Scan.skip (count.toNat * width.bytes)
  return { id, trace, classId, count, offset }

def PrimitiveArrayDump.scan (width : IdWidth) (withContents : Bool) : Scan PrimitiveArrayDump := do
  let id ← Scan.ident width
  let trace ← Scan.u32
  let count ← Scan.u32
  let type ← Scan.primitiveType
  if withContents then
    let offset ← Scan.position
    Scan.skip (count.toNat * type.size)
    return { id, trace, type, count, offset := some offset }
  else
    return { id, trace, type, count, offset := none }

namespace SubRecord

def scanTag : Scan SubRecordTag := do
  let offset ← Scan.position
  let byte ← Scan.u8
  match SubRecordTag.ofByte? byte with
  | some tag => return tag
  | none => Scan.malformed offset (.unknownSubRecord byte)

def scan (width : IdWidth) : Scan SubRecord := do
  match ← scanTag with
  | .root .threadObject => return .thread (← ThreadObject.scan width)
  | .root kind => return .root (← Root.scan width kind)
  | .heapInfo => return .heapSwitch (← HeapSwitch.scan width)
  | .classDump => return .classDump (← ClassDump.scan width)
  | .instanceDump => return .instance (← InstanceDump.scan width)
  | .objectArrayDump => return .objectArray (← ObjectArrayDump.scan width)
  | .primitiveArrayDump => return .primitiveArray (← PrimitiveArrayDump.scan width true)
  | .primitiveArrayNoData => return .primitiveArray (← PrimitiveArrayDump.scan width false)

/-- A sub-record that ends no later than the body that holds it. -/
def scanWithin (width : IdWidth) (stop : Nat) : Scan SubRecord := do
  let offset ← Scan.position
  let record ← scan width
  let after ← Scan.position
  if stop < after then Scan.malformed offset (.pastSegment (after - stop)) else return record

/-- The sub-records in the body of a heap dump record. -/
def list (source : ByteSource) (width : IdWidth) (record : Record) : Listing DumpError SubRecord :=
  Scan.list (scanWithin width record.stop) source record.bodyOffset record.stop

end SubRecord

end HeapDump
