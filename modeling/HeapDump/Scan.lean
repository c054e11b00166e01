import HeapDump.Store.Source
import HeapDump.Packed

/-! Reading a dump at a position.  A scan answers from the bytes at its position and says how many bytes
it moved past.  A read that fails moves past nothing, but the reads before it in the same scan have
moved, so a failed scan too has a position after it. -/

namespace HeapDump

/-- The answer of a scan and the number of bytes it moved past. -/
structure Scanned (α : Type) where
  answer : Except DumpError α
  used : Nat

/-- A way to read a source from a position on. -/
def Scan (α : Type) : Type := ByteSource → Nat → Scanned α

namespace Scan

variable {α : Type}

/-- The second scan reads where the first one stopped. -/
instance : Monad Scan where
  pure a := fun _ _ => ⟨.ok a, 0⟩
  bind scan next := fun source position =>
    match scan source position with
    | ⟨.error e, used⟩ => ⟨.error e, used⟩
    | ⟨.ok a, used⟩ =>
      let rest := next a source (position + used)
      ⟨rest.answer, used + rest.used⟩

def position : Scan Nat := fun _ position => ⟨.ok position, 0⟩

def fail (error : DumpError) : Scan α := fun _ _ => ⟨.error error, 0⟩

/-- The next `length` bytes. -/
def take (length : Nat) : Scan (List UInt8) := fun source position =>
  match source.slice position length with
  | .ok bytes => ⟨.ok bytes, length⟩
  | .error e => ⟨.error e, 0⟩

/-- Moves past `length` bytes without reading them. -/
def skip (length : Nat) : Scan Unit := fun source position =>
  if length ≤ source.size - position then ⟨.ok (), length⟩
  else ⟨.error (.outOfBounds position length source.size), 0⟩

/-- The number in the next `n` bytes. -/
def word (n : Nat) : Scan Nat :=
  return Word.ofBytes (← take n)

def u8 : Scan UInt8 :=
  return UInt8.ofNat (← word 1)

def u16 : Scan UInt16 :=
  return UInt16.ofNat (← word 2)

def u32 : Scan UInt32 :=
  return UInt32.ofNat (← word 4)

def u64 : Scan UInt64 :=
  return UInt64.ofNat (← word 8)

def ident (width : IdWidth) : Scan Ident :=
  return Ident.ofBytes (← take width.bytes)

/-- A reference, which may be null. -/
def reference (width : IdWidth) : Scan (Option Ident) :=
  return (← ident width).nonNull?

def value (width : IdWidth) (type : FieldType) : Scan Value :=
  return Value.ofBytes type (← take (type.size width))

/-- The same scan `n` times. -/
def times (scan : Scan α) : Nat → Scan (List α)
  | 0 => return []
  | n + 1 => do
    let first ← scan
    let rest ← times scan n
    return first :: rest

/-- At most `fuel` items from `position` on, as long as an item starts before `stop`. -/
def listFrom (item : Scan α) (source : ByteSource) (stop : Nat) :
    (fuel position : Nat) → Listing DumpError α
  | 0, _ => ⟨[], none⟩
  | fuel + 1, position =>
    if position < stop then
      match item source position with
      | ⟨.ok a, used⟩ => (listFrom item source stop fuel (position + used)).cons a
      | ⟨.error e, _⟩ => ⟨[], some e⟩
    else ⟨[], none⟩

/-- The items of one range.  An item uses at least one byte, so a range holds no more items than
bytes. -/
def list (item : Scan α) (source : ByteSource) (start stop : Nat) : Listing DumpError α :=
  listFrom item source stop (stop - start) start

end Scan

/-- A place in a source, from which scans are run one after another.  It may lie past the end. -/
structure Cursor where
  source : ByteSource
  position : Nat

namespace Cursor

/-- The bytes between the cursor and the end. -/
def remaining (cursor : Cursor) : Nat :=
  cursor.source.size - cursor.position

def hasRemaining (cursor : Cursor) : Bool :=
  0 < cursor.remaining

def seek (cursor : Cursor) (position : Nat) : Cursor :=
  { cursor with position := position }

/-- The answer of a scan at the cursor, and the cursor after it. -/
def run {α : Type} (cursor : Cursor) (scan : Scan α) : Except DumpError α × Cursor :=
  let scanned := scan cursor.source cursor.position
  (scanned.answer, cursor.seek (cursor.position + scanned.used))

end Cursor

end HeapDump
