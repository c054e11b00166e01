/-! Tags inside heap dump bodies.  A tag declares a root of the garbage collector, a class, an
instance, an array or a change of heap.  Android adds to the tags of the Java virtual machine. -/

namespace HeapDump

/-- Why an object is a root. -/
inductive RootKind
  | unknown
  /-- A global reference from native code. -/
  | nativeStatic
  /-- A local reference from native code. -/
  | nativeLocal
  /-- A local variable in a frame of Java code. -/
  | javaLocal
  | nativeStack
  /-- A class that is never unloaded. -/
  | systemClass
  | threadBlock
  | busyMonitor
  | threadObject
  | internedString
  | finalizing
  | debugger
  | referenceCleanup
  | vmInternal
  | nativeMonitor
  | unreachable
deriving DecidableEq, Repr

namespace RootKind

def all : List RootKind :=
  [unknown, nativeStatic, nativeLocal, javaLocal, nativeStack, systemClass, threadBlock,
    busyMonitor, threadObject, internedString, finalizing, debugger, referenceCleanup, vmInternal,
    nativeMonitor, unreachable]

def name : RootKind → String
  | unknown => "UNKNOWN"
  | nativeStatic => "NATIVE_STATIC"
  | nativeLocal => "NATIVE_LOCAL"
  | javaLocal => "JAVA_LOCAL"
  | nativeStack => "NATIVE_STACK"
  | systemClass => "SYSTEM_CLASS"
  | threadBlock => "THREAD_BLOCK"
  | busyMonitor => "BUSY_MONITOR"
  | threadObject => "THREAD_OBJECT"
  | internedString => "INTERNED_STRING"
  | finalizing => "FINALIZING"
  | debugger => "DEBUGGER"
  | referenceCleanup => "REFERENCE_CLEANUP"
  | vmInternal => "VM_INTERNAL"
  | nativeMonitor => "NATIVE_MONITOR"
  | unreachable => "UNREACHABLE"

/-- The tag byte of a root of this kind. -/
def byte : RootKind → UInt8
  | unknown => 0xFF
  | nativeStatic => 0x01
  | nativeLocal => 0x02
  | javaLocal => 0x03
  | nativeStack => 0x04
  | systemClass => 0x05
  | threadBlock => 0x06
  | busyMonitor => 0x07
  | threadObject => 0x08
  | internedString => 0x89
  | finalizing => 0x8A
  | debugger => 0x8B
  | referenceCleanup => 0x8C
  | vmInternal => 0x8D
  | nativeMonitor => 0x8E
  | unreachable => 0x90

/-- Kinds are ordered by their tag bytes. -/
instance : Ord RootKind := ⟨compareOn byte⟩

instance : Std.TransOrd RootKind := inferInstanceAs (Std.TransCmp (compareOn byte))

end RootKind

inductive SubRecordTag
  | root (kind : RootKind)
  | classDump
  | instanceDump
  | objectArrayDump
  | primitiveArrayDump
  | heapInfo
  | primitiveArrayNoData
deriving DecidableEq, Repr

namespace SubRecordTag

def all : List SubRecordTag :=
  RootKind.all.map root ++
    [classDump, instanceDump, objectArrayDump, primitiveArrayDump, heapInfo, primitiveArrayNoData]

def byte : SubRecordTag → UInt8
  | root kind => kind.byte
  | classDump => 0x20
  | instanceDump => 0x21
  | objectArrayDump => 0x22
  | primitiveArrayDump => 0x23
  | heapInfo => 0xFE
  | primitiveArrayNoData => 0xC3

def ofByte? (byte : UInt8) : Option SubRecordTag :=
  all.find? (·.byte = byte)

/-- The kind of root that a tag declares. -/
def rootKind? : SubRecordTag → Option RootKind
  | root kind => some kind
  | _ => none

end SubRecordTag

end HeapDump
