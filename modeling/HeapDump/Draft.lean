import HeapDump.Record.Body
import HeapDump.SubRecord

/-! Drafts of dumps.  A draft says, in order, what a dump is to hold, and `toBytes` writes it.  Nothing
is checked: a draft may give an instance bytes that do not fit its class or put arbitrary bytes
anywhere.  Identifiers and counts keep the low bytes that their fields have room for. -/

namespace HeapDump

/-- One sub-record of a heap dump body, or arbitrary bytes in it. -/
inductive DraftItem
  | heapSwitch (heap : UInt32) (nameId : Ident)
  /-- A tag and an object, which is all that nine kinds of root consist of. -/
  | root (tag : SubRecordTag) (object : Ident)
  | nativeStatic (object reference : Ident)
  | nativeLocal (object : Ident) (thread : Serial) (frame : UInt32)
  | javaLocal (object : Ident) (thread : Serial) (frame : UInt32)
  | nativeMonitor (object : Ident) (thread : Serial) (frame : UInt32)
  | nativeStack (object : Ident) (thread : Serial)
  | threadBlock (object : Ident) (thread : Serial)
  | threadObject (object : Ident) (thread trace : Serial)
  | classDump (id : Ident) (superclass : Option Ident) (instanceSize : UInt32)
      (constants : List (UInt16 × Value)) (statics : List (Ident × Value))
      (fields : List (Ident × FieldType))
  | instance (id classId : Ident) (blob : List UInt8)
  /-- An instance whose bytes are those of its field values. -/
  | instanceValues (id classId : Ident) (values : List Value)
  | objectArray (id classId : Ident) (elements : List (Option Ident))
  /-- The values are written as they are, also where their types differ from that of the array. -/
  | primitiveArray (id : Ident) (type : PrimitiveType) (values : List Value)
  | primitiveArrayNoData (id : Ident) (type : PrimitiveType) (count : UInt32)
  | raw (bytes : List UInt8)
deriving DecidableEq, Repr

namespace DraftItem

def u16 (n : Nat) : List UInt8 := Word.toBytes 2 n

def u32 (n : Nat) : List UInt8 := Word.toBytes 4 n

/-- The type of a value and the value. -/
def typed (width : IdWidth) (value : Value) : List UInt8 :=
  value.type.code :: value.toBytes width

/-- A reference, zero where it is null. -/
def reference (width : IdWidth) (target : Option Ident) : List UInt8 :=
  (target.getD Ident.null).toBytes width

/-- Loader, signers, protection domain and the reserved references of a class are null. -/
def classBytes (width : IdWidth) (id : Ident) (superclass : Option Ident) (instanceSize : UInt32)
    (constants : List (UInt16 × Value)) (statics : List (Ident × Value))
    (fields : List (Ident × FieldType)) : List UInt8 :=
  id.toBytes width ++ u32 0 ++ reference width superclass ++
    (List.replicate 5 Ident.null).flatMap (·.toBytes width) ++ u32 instanceSize.toNat ++
    u16 constants.length ++
    constants.flatMap (fun (index, value) => u16 index.toNat ++ typed width value) ++
    u16 statics.length ++
    statics.flatMap (fun (nameId, value) => nameId.toBytes width ++ typed width value) ++
    u16 fields.length ++
    fields.flatMap (fun (nameId, type) => nameId.toBytes width ++ [type.code])

def instanceBytes (width : IdWidth) (id classId : Ident) (blob : List UInt8) : List UInt8 :=
  id.toBytes width ++ u32 0 ++ classId.toBytes width ++ u32 blob.length ++ blob

/-- The fields of a root tied to a frame of a thread. -/
def frameBytes (width : IdWidth) (object : Ident) (thread : Serial) (frame : UInt32) :
    List UInt8 :=
  object.toBytes width ++ u32 thread.toNat ++ u32 frame.toNat

/-- The fields of an array up to its type. -/
def arrayBytes (width : IdWidth) (id : Ident) (type : PrimitiveType) (count : Nat) : List UInt8 :=
  id.toBytes width ++ u32 0 ++ u32 count ++ [type.code]

/-- A tag and the fields after it. -/
def tagged (tag : SubRecordTag) (fields : List UInt8) : List UInt8 :=
  tag.byte :: fields

def toBytes (width : IdWidth) : DraftItem → List UInt8
  | heapSwitch heap nameId => tagged .heapInfo (u32 heap.toNat ++ nameId.toBytes width)
  | root tag object => tagged tag (object.toBytes width)
  | nativeStatic object reference =>
    tagged (.root .nativeStatic) (object.toBytes width ++ reference.toBytes width)
  | nativeLocal object thread frame =>
    tagged (.root .nativeLocal) (frameBytes width object thread frame)
  | javaLocal object thread frame =>
    tagged (.root .javaLocal) (frameBytes width object thread frame)
  | nativeMonitor object thread frame =>
    tagged (.root .nativeMonitor) (frameBytes width object thread frame)
  | nativeStack object thread =>
    tagged (.root .nativeStack) (object.toBytes width ++ u32 thread.toNat)
  | threadBlock object thread =>
    tagged (.root .threadBlock) (object.toBytes width ++ u32 thread.toNat)
  | threadObject object thread trace =>
    tagged (.root .threadObject) (object.toBytes width ++ u32 thread.toNat ++ u32 trace.toNat)
  | classDump id superclass instanceSize constants statics fields =>
    tagged .classDump (classBytes width id superclass instanceSize constants statics fields)
  | .instance id classId blob => tagged .instanceDump (instanceBytes width id classId blob)
  | instanceValues id classId values =>
    tagged .instanceDump (instanceBytes width id classId (values.flatMap (·.toBytes width)))
  | objectArray id classId elements =>
    tagged .objectArrayDump
      (id.toBytes width ++ u32 0 ++ u32 elements.length ++ classId.toBytes width ++
        elements.flatMap (reference width))
  | primitiveArray id type values =>
    tagged .primitiveArrayDump
      (arrayBytes width id type values.length ++ values.flatMap (·.toBytes width))
  | primitiveArrayNoData id type count =>
    tagged .primitiveArrayNoData (arrayBytes width id type count.toNat)
  | raw bytes => bytes

end DraftItem

/-- One top level record. -/
inductive DraftRecord
  | text (id : Ident) (content : String)
  | loadClass (load : ClassLoad)
  | unloadClass (serial : Serial)
  | frame (entry : FrameRecord)
  | trace (entry : TraceRecord)
  | heapDump (items : List DraftItem)
  | segment (items : List DraftItem)
  | heapDumpEnd
  | raw (tagByte : UInt8) (body : List UInt8)
deriving DecidableEq, Repr

namespace DraftRecord

open DraftItem

/-- The body of a heap dump record. -/
def itemBytes (width : IdWidth) (items : List DraftItem) : List UInt8 :=
  items.flatMap (·.toBytes width)

def tagByte : DraftRecord → UInt8
  | text _ _ => RecordTag.utf8.byte
  | loadClass _ => RecordTag.loadClass.byte
  | unloadClass _ => RecordTag.unloadClass.byte
  | frame _ => RecordTag.stackFrame.byte
  | trace _ => RecordTag.stackTrace.byte
  | heapDump _ => RecordTag.heapDump.byte
  | segment _ => RecordTag.heapDumpSegment.byte
  | heapDumpEnd => RecordTag.heapDumpEnd.byte
  | raw tagByte _ => tagByte

def body (width : IdWidth) : DraftRecord → List UInt8
  | text id content => id.toBytes width ++ Text.Utf8.encode content
  | loadClass load =>
    u32 load.serial.toNat ++ load.classId.toBytes width ++ u32 load.trace.toNat ++
      load.nameId.toBytes width
  | unloadClass serial => u32 serial.toNat
  | frame entry =>
    entry.id.toBytes width ++ entry.methodName.toBytes width ++ entry.signature.toBytes width ++
      entry.sourceFile.toBytes width ++ u32 entry.classSerial.toNat ++ u32 entry.line.code.toNat
  | trace entry =>
    u32 entry.serial.toNat ++ u32 entry.thread.toNat ++ u32 entry.frames.length ++
      entry.frames.flatMap (·.toBytes width)
  | heapDump items | segment items => itemBytes width items
  | heapDumpEnd => []
  | raw _ body => body

def toBytes (width : IdWidth) (record : DraftRecord) : List UInt8 :=
  Record.toBytes record.tagByte (record.body width)

end DraftRecord

structure Draft where
  label : String
  idWidth : IdWidth
  timestamp : UInt64
  records : List DraftRecord
deriving DecidableEq, Repr

/-- The dump that a draft describes. -/
def Draft.toBytes (draft : Draft) : List UInt8 :=
  Header.toBytes draft.label draft.idWidth draft.timestamp ++
    draft.records.flatMap (·.toBytes draft.idWidth)

end HeapDump
