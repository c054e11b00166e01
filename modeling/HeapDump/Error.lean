import HeapDump.Ident
import HeapDump.Record.Tag
import HeapDump.Text.Hex
import HeapDump.Text.Quoted

/-! What can go wrong with a dump: it cannot be opened, a read runs past its end, its identifiers have
an unknown width, or its bytes at some offset break the format.  Each cause is a constructor, and
`message` puts it into words.  Offsets count bytes from the start of the dump. -/

namespace HeapDump

/-- A way to break the format. -/
inductive Fault
  /-- No NUL ends the label of the header. -/
  | headerLabelOpen
  /-- The header ends inside the numbers after its label. -/
  | headerCut
  | unknownLabel (label : String)
  | unknownVersion (version : String)
  /-- The body of a record ends inside its fields. -/
  | recordCut (tag : RecordTag)
  | unknownSubRecord (byte : UInt8)
  /-- A sub-record ends `excess` bytes after the body that holds it. -/
  | pastSegment (excess : Nat)
  | unknownFieldType (code : UInt8)
  | notPrimitive (code : UInt8)
  /-- An instance has fewer bytes of fields than its class and superclasses lay out. -/
  | blobShort (object : Ident) (className : String) (has needs : Nat)
  /-- The bytes of an instance end before or inside a field. -/
  | fieldCut (field : String) (object : Ident)
deriving DecidableEq, Repr

/-- Why a dump cannot be opened. -/
inductive OpenFault
  | missingFile
  /-- A mapping needs at least one byte. -/
  | emptyMapping
deriving DecidableEq, Repr

inductive DumpError
  | unopened (offset : Nat) (fault : OpenFault)
  /-- A read of `length` bytes at `offset` in data of `limit` bytes. -/
  | outOfBounds (offset length limit : Nat)
  | malformed (offset : Nat) (fault : Fault)
  | unsupportedIdWidth (bytes : UInt32)
deriving DecidableEq, Repr

open Text

def Fault.message : Fault → String
  | headerLabelOpen => "could not decode file header: TakeUntil"
  | headerCut => "could not decode file header: Eof"
  | unknownLabel label => "unrecognized format label " ++ Quoted.quote label
  | unknownVersion version => "unsupported hprof version " ++ Quoted.quote version
  | recordCut tag => s!"could not decode {tag.name} record: Eof"
  | unknownSubRecord byte => s!"unknown heap dump sub-record tag {hexCode byte}"
  | pastSegment excess =>
    s!"sub-record runs {excess} bytes past the end of its heap dump segment"
  | unknownFieldType code => s!"unknown field type {hexCode code}"
  | notPrimitive code => s!"unexpected primitive array type {hexCode code}"
  | blobShort object className has needs =>
    s!"instance {hexIdent object.val} of {className} has {has} bytes of fields but its layout " ++
      s!"needs {needs}"
  | fieldCut field object =>
    s!"could not decode field {field} of instance {hexIdent object.val}: Eof"

def OpenFault.message : OpenFault → String
  | missingFile => "No such file or directory (os error 2)"
  | emptyMapping => "memory map must have a non-zero length"

namespace DumpError

def message : DumpError → String
  | unopened offset fault => s!"I/O error at offset {offset}: {fault.message}"
  | outOfBounds offset length limit =>
    s!"read of {length} bytes at offset {offset} runs past end of data ({limit} bytes)"
  | malformed offset fault => s!"malformed hprof at offset {offset}: {fault.message}"
  | unsupportedIdWidth bytes => s!"unsupported identifier size {bytes}, expected 4 or 8"

/-- Where the failure was met, when it has a place. -/
def offset? : DumpError → Option Nat
  | unopened offset _ | outOfBounds offset _ _ | malformed offset _ => some offset
  | unsupportedIdWidth _ => none

end DumpError

end HeapDump
