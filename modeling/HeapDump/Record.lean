import HeapDump.Header
import HeapDump.Scan

/-! Top level records.  After the header a dump is a row of records: a tag byte, a time in
microseconds, the length of the body, and the body.  Records of any tag can be told apart, since
their framing is the same. -/

namespace HeapDump

structure Record where
  /-- Where the tag byte stands. -/
  offset : Nat
  tagByte : UInt8
  /-- Time since that of the header. -/
  micros : UInt32
  bodyLength : UInt32
deriving DecidableEq, Repr

namespace Record

/-- The bytes before the body. -/
def frameSize : Nat := 9

def bodyOffset (record : Record) : Nat :=
  record.offset + frameSize

/-- Where the next record stands. -/
def stop (record : Record) : Nat :=
  record.bodyOffset + record.bodyLength.toNat

def tag? (record : Record) : Option RecordTag :=
  RecordTag.ofByte? record.tagByte

/-- A record whose body lies inside the dump. -/
def scan : Scan Record := do
  let offset ← Scan.position
  let tagByte ← Scan.u8
  let micros ← Scan.u32
  let bodyLength ← Scan.u32
  Scan.skip bodyLength.toNat
  return { offset, tagByte, micros, bodyLength }

/-- The records of a dump. -/
def list (source : ByteSource) (header : Header) : Listing DumpError Record :=
  Scan.list scan source header.recordsOffset source.size

def body (source : ByteSource) (record : Record) : Except DumpError (List UInt8) :=
  source.slice record.bodyOffset record.bodyLength.toNat

/-- A record with the time zero. -/
def toBytes (tagByte : UInt8) (body : List UInt8) : List UInt8 :=
  tagByte :: (Word.toBytes 4 0 ++ Word.toBytes 4 body.length ++ body)

end Record

end HeapDump
