import HeapDump.Packed
import HeapDump.Text.Utf8

/-! Bodies of the records around the heap: texts, loaded and unloaded classes, stack frames and stack
traces.  Bytes after the last field of a body are ignored. -/

namespace HeapDump

/-- A text and the identifier that stands for it. -/
structure NamedText where
  id : Ident
  bytes : List UInt8
deriving DecidableEq, Repr

namespace NamedText

def decode (width : IdWidth) : Slice NamedText := do
  let id ← Slice.ident width
  let bytes ← Slice.rest
  return { id, bytes }

/-- The text with NUL in either spelling and anything that is no text replaced. -/
def text (named : NamedText) : String :=
  Text.Utf8.decodeLossy (Text.Utf8.restoreNul named.bytes)

end NamedText

structure ClassLoad where
  serial : Serial
  classId : Ident
  trace : Serial
  nameId : Ident
deriving DecidableEq, Repr

def ClassLoad.decode (width : IdWidth) : Slice ClassLoad := do
  let serial ← Slice.u32
  let classId ← Slice.ident width
  let trace ← Slice.u32
  let nameId ← Slice.ident width
  return { serial, classId, trace, nameId }

structure ClassUnload where
  serial : Serial
deriving DecidableEq, Repr

def ClassUnload.decode : Slice ClassUnload :=
  return ⟨← Slice.u32⟩

/-- Where in its source a frame stands. -/
inductive LineNumber
  /-- A line, or 0 where no line is known to be meant. -/
  | line (number : UInt32)
  | unknown
  | compiledMethod
  | nativeMethod
deriving DecidableEq, Repr

namespace LineNumber

/-- Codes with the sign bit set are no lines. -/
def ofCode (code : UInt32) : LineNumber :=
  if code < 0x80000000 then line code
  else if code = 0xFFFFFFFE then compiledMethod
  else if code = 0xFFFFFFFD then nativeMethod
  else unknown

def code : LineNumber → UInt32
  | line number => number
  | unknown => 0xFFFFFFFF
  | compiledMethod => 0xFFFFFFFE
  | nativeMethod => 0xFFFFFFFD

def text : LineNumber → String
  | line number => toString number.toNat
  | unknown => "Unknown"
  | compiledMethod => "CompiledMethod"
  | nativeMethod => "NativeMethod"

end LineNumber

/-- A stack frame, its texts by identifier. -/
structure FrameRecord where
  id : Ident
  methodName : Ident
  signature : Ident
  sourceFile : Ident
  classSerial : Serial
  line : LineNumber
deriving DecidableEq, Repr

def FrameRecord.decode (width : IdWidth) : Slice FrameRecord := do
  let id ← Slice.ident width
  let methodName ← Slice.ident width
  let signature ← Slice.ident width
  let sourceFile ← Slice.ident width
  let classSerial ← Slice.u32
  let line ← Slice.u32
  return { id, methodName, signature, sourceFile, classSerial, line := .ofCode line }

/-- A stack trace, its frames by identifier and innermost first. -/
structure TraceRecord where
  serial : Serial
  thread : Serial
  frames : List Ident
deriving DecidableEq, Repr

/-- The frames of a trace stand in one block, which is taken as a whole. -/
def TraceRecord.decode (width : IdWidth) : Slice TraceRecord := do
  let serial ← Slice.u32
  let thread ← Slice.u32
  let count ← Slice.u32
  let block ← Slice.take (count.toNat * width.bytes)
  let frames := Packed.toListing ⟨Slice.ident width, block, count.toNat⟩
  return { serial, thread, frames := frames.items }

end HeapDump
