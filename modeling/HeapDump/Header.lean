import HeapDump.Slice
import HeapDump.Store
import HeapDump.Text.Utf8

/-! The header of a dump: a label that ends in NUL, the width of identifiers, and the time of the dump
in milliseconds.  The label names the format and one of three versions of it.  A label is looked for
in the first bytes only, since it is short. -/

namespace HeapDump

structure Header where
  label : String
  idWidth : IdWidth
  /-- Milliseconds since the start of 1970. -/
  timestamp : UInt64
  /-- Where the first record stands. -/
  recordsOffset : Nat
deriving DecidableEq, Repr

namespace Header

/-- The longest label, its NUL and the numbers after it fit in this many bytes. -/
def maxSize : Nat := 64 + 1 + 12

def format : String := "JAVA PROFILE "

def versions : List String := ["1.0.1", "1.0.2", "1.0.3"]

/-- A label is right if it is the name of the format and then a known version. -/
def checkLabel (label : String) : Except Fault Unit :=
  match format.toList.isPrefixOf? label.toList with
  | none => .error (.unknownLabel label)
  | some version =>
    if String.ofList version ∈ versions then .ok ()
    else .error (.unknownVersion (String.ofList version))

/-- The width of identifiers and the time, high half first. -/
def numbers : Slice (UInt32 × UInt64) := do
  let idBytes ← Slice.u32
  let timestamp ← Slice.word 8
  return (idBytes, UInt64.ofNat timestamp)

/-- The header at the start of a dump whose first bytes are `start`. -/
def ofBytes (start : List UInt8) : Except DumpError Header :=
  match start.span (· ≠ 0) with
  | (_, []) => .error (.malformed 0 .headerLabelOpen)
  | (label, _ :: rest) =>
    match numbers rest with
    | .error _ => .error (.malformed 0 .headerCut)
    | .ok ((idBytes, timestamp), rest) =>
      let label := Text.Utf8.decodeLossy label
      match checkLabel label with
      | .error fault => .error (.malformed 0 fault)
      | .ok () =>
        match IdWidth.ofBytes? idBytes with
        | none => .error (.unsupportedIdWidth idBytes)
        | some idWidth =>
          .ok { label, idWidth, timestamp, recordsOffset := start.length - rest.length }

def read (source : ByteSource) : Except DumpError Header := do
  ofBytes (← source.slice 0 (min source.size maxSize))

/-- The bytes of a header. -/
def toBytes (label : String) (idWidth : IdWidth) (timestamp : UInt64) : List UInt8 :=
  Text.Utf8.encode label ++ [0] ++ Word.toBytes 4 idWidth.bytes ++ Word.toBytes 8 timestamp.toNat

/-- A header in one line. -/
def summary (header : Header) : String :=
  let label := Text.Quoted.quote header.label
  let width := match header.idWidth with
    | .four => "U32"
    | .eight => "U64"
  "Header \x7b label: " ++ label ++
    s!", timestamp_millis: {header.timestamp}, id_size: {width}" ++ " \x7d"

end Header

end HeapDump
