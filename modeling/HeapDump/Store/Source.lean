import HeapDump.Error

/-! What readers know of a dump: its size, and the bytes of any range inside it.  Everything that reads
a dump reads it through a `ByteSource`, so two stores that answer alike are read alike. -/

namespace HeapDump

structure ByteSource where
  size : Nat
  /-- The `length` bytes at a position. -/
  slice : (position length : Nat) → Except DumpError (List UInt8)

/-- A range may be read if it ends inside the data. -/
def checkRange (position length limit : Nat) : Except DumpError Unit :=
  if position + length ≤ limit then .ok () else .error (.outOfBounds position length limit)

end HeapDump
